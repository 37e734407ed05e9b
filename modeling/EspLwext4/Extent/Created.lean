import EspLwext4.Extent.Creating

/-!
# What a created run leaves behind

After `ext4_extent_get_blocks` created blocks all nodes pass the checks again, provided the
new extent stayed below 2^32 and apart from the others. On a well-formed tree the blocks
then map where the call said exactly when no key that leads away lies inside the new run: a
search for the blocks behind such a key ends in another leaf.
-/

namespace EspLwext4

open Prog Bytes Ranged

variable (inodeRef : InodeRef)

/-- What the code's own checks ask of a whole tree. -/
structure Sound (D : Disk) : Prop where
  nodes : D.root.All (AcceptableAt inodeRef D)
  inRange : ∀ e ∈ D.root.items, extentInRange inodeRef e = true
  apart : Apart D.root.items

/-- In `s` every search succeeds unless a block read fails. -/
def Searchable (s : St) : Prop :=
  ∀ lblock, wp (findExtent inodeRef lblock) (fun _ _ => True)
    (fun err s' => ReadFailed inodeRef s s' .findExtent err) s

/-- There is room for the run `r` of blocks from `iblock` on: it ends at 2^32 at the latest and
lies apart from the extents `es`, and where `can_merge` takes it for the continuation of the
first of them it is. -/
structure RoomFor (es : List Ext4Extent) (iblock : ℕ) (r : ℕ × ℕ) : Prop where
  stop_le : iblock + r.2 ≤ uint32Max + 1
  apart : ∀ e ∈ es, stop e ≤ iblock ∨ iblock + r.2 ≤ first e
  start : ∀ e ∈ es.head?, canMerge e (newRun iblock r.1 r.2) = true → stop e = iblock

/-- The blocks from `iblock` on were created as `r` says, and nothing else changed. -/
structure CreatesExactly (s s' : St) (iblock maxBlocks : ℕ) (r : ℕ × ℕ) : Prop where
  pos : 1 ≤ r.2
  le : r.2 ≤ maxBlocks
  unmapped : ∀ k < r.2, s.bytes.mapping (iblock + k) = none
  before : ∀ lblock : UInt32, Resolves inodeRef s lblock.toNat (s.bytes.mapping lblock.toNat)
  after : ∀ lblock : UInt32, Resolves inodeRef s' lblock.toNat
    (if iblock ≤ lblock.toNat ∧ lblock.toNat < iblock + r.2 then
      some (r.1 + (lblock.toNat - iblock), false)
    else s.bytes.mapping lblock.toNat)

/-- The answer of `ext4_extent_get_blocks` with `create`: a written block is looked up, an
unwritten one is an error, and blocks are created where nothing is mapped. -/
structure CreateAnswers (s s' : St) (iblock maxBlocks : ℕ) (r : ℕ × ℕ) : Prop where
  existing : ∀ p u, s.bytes.mapping iblock = some (p, u) → u = false ∧ s'.bytes = s.bytes ∧ r.1 = p ∧
    ∃ e ∈ s.bytes.root.items, Covers e iblock ∧ r.2 = min maxBlocks (stop e - iblock)
  created : s.bytes.mapping iblock = none → CreatesExactly inodeRef s s' iblock maxBlocks r

/-- `iblock` is mapped, or no key behind the first of its node lies strictly inside the run
that the allocator grants there with these answers. -/
def NoKeyInside (D : Disk) (iblock maxBlocks : ℕ) (answers : List (Except Errno ℕ)) : Prop :=
  (∃ e ∈ D.root.items, Covers e iblock) ∨ ∀ k ∈ D.root.inner, k ≤ iblock ∨
    iblock + (granted (runCap D.root.items iblock maxBlocks) answers).2 ≤ k

section Lemmas

variable {inodeRef} {base own : Multiset ℕ} {s s₁ s' : St} {d d' : ℕ} {D : Disk} {g : Grade}
variable {t : SepTree Ext4Extent d} {t' : SepTree Ext4Extent d'} {new : Ext4Extent}
variable {iblock maxBlocks : ℕ} {r : ℕ × ℕ}

theorem TreeFit.sound (hrep : Rep inodeRef g D t) (h : TreeFit inodeRef g t) :
    Sound inodeRef D := by
  obtain ⟨rfl, heq⟩ := hrep.eq_root h.addr
  dsimp only at heq
  subst heq
  exact ⟨hrep.acceptable_all h.fit, h.inRange, h.apart⟩

theorem Sound.searchable (h : Sound inodeRef s.bytes) : Searchable inodeRef s := by
  intro lblock
  have hrep : Rep inodeRef .accepted s.bytes s.bytes.root :=
    rep_tree 0 (h.nodes.imp fun _ _ hu => ⟨hu.toStanding, nofun⟩)
  refine wp_mono (wp_findExtent_seek hrep (Disk.addr_tree _ _ _) h.nodes) ?_ fun _ _ h => h.2
  exact fun _ _ _ => trivial

/-- Where no key that leads away is inside the new extent, the searches for its blocks end alike. -/
theorem undivided_of_inner (hnew : Insertable inodeRef new t.items)
    (hrange : ∀ e ∈ t.items, extentInRange inodeRef e = true)
    (h : ∀ k ∈ t.inner, k ≤ first new ∨ stop new ≤ k) : t.Undivided new := by
  intro v hle hlt
  refine SepTree.seek_alike (fun k hk => ?_) fun e he => ?_
  · rcases h k hk with hbefore | hbehind <;> omega
  · have hpos := first_lt_stop (hrange e he)
    rcases hnew.apart e he with hbefore | hbehind <;> omega

/-- In a tree with exact keys no key is inside. -/
theorem undivided_of_exact (hnew : Insertable inodeRef new t.items)
    (hrange : ∀ e ∈ t.items, extentInRange inodeRef e = true) (h : t.Exact) : t.Undivided new := by
  refine undivided_of_inner hnew hrange fun k hk => ?_
  obtain ⟨e, he, rfl⟩ := h.exists_first (SepTree.separators_of_inner hk)
  have hlt := first_lt_stop (hrange e he)
  rcases hnew.apart e he with hbefore | hbehind
  · exact Or.inl (by omega)
  · exact Or.inr hbehind

theorem IoSucceeds.neverMissing (h : IoSucceeds inodeRef) : NeverMissing inodeRef :=
  fun c tr he => by rw [h c tr] at he; cases he

/-- What was created is accepted exactly when there was room for it. -/
theorem Allotted.sound_iff (h : Allotted inodeRef base s s' t iblock maxBlocks r own t')
    (hiblock : iblock ≤ uint32Max) (hcnt : inodeRef.blocksCnt ≤ pblockLimit) :
    Sound inodeRef s'.bytes ↔ RoomFor t.items iblock r := by
  obtain ⟨cap, hasked, hle, -⟩ := h.asked
  have hcount : r.2 ≤ 32768 := hle.trans hasked.le
  obtain ⟨s₁, htaken, hput⟩ := h.put
  have hstop : stop (newRun iblock r.1 r.2) = iblock + r.2 := stop_newRun hcount
  constructor
  · intro hsound
    have hitems := hput.rep.items_root hput.addr
    have hb := hput.belongs (hitems ▸ hsound.inRange) (hitems ▸ hsound.apart)
    refine ⟨?_, fun e he => ?_, hb.continues⟩
    · exact hstop ▸ (extentInRange_iff.mp hb.insertable.inRange).2.1
    · exact hstop ▸ hb.insertable.apart e he
  · intro hroom
    have hfresh := fresh_newRun h.pos hcount hiblock (htaken.inside h.pos) hcnt
    have hb : Belongs inodeRef (newRun iblock r.1 r.2) t.items := by
      refine ⟨hfresh.insertable (hstop ▸ hroom.stop_le) fun e he => ?_, hroom.start⟩
      rw [hstop]
      exact hroom.apart e he
    exact (hput.placed hb).fit.sound hput.rep

section Created

variable (h : Created inodeRef base s s' t iblock maxBlocks r own t')

include h

theorem Created.count_le : r.2 ≤ 32768 := (h.le.trans runCap_le).trans (Nat.min_le_right _ _)

theorem Created.pblock_lt (hcnt : inodeRef.blocksCnt ≤ pblockLimit) : r.1 < pblockLimit := by
  obtain ⟨s₁, htaken, -⟩ := h.placed
  have hinside := (htaken.inside h.pos).2
  have hpos := h.pos
  omega

theorem Created.sound : Sound inodeRef s'.bytes :=
  let ⟨_, _, hplaced⟩ := h.placed
  hplaced.fit.sound hplaced.rep

theorem Created.items : Inserted Merges (newRun iblock r.1 r.2) t.items t'.items :=
  let ⟨_, _, hplaced⟩ := h.placed
  hplaced.items

/-- The tree after the call, where no key divides the run. -/
theorem Created.treeOk (hkeys : t.Undivided (newRun iblock r.1 r.2)) : TreeOk inodeRef .built t' :=
  let ⟨_, _, hplaced⟩ := h.placed
  hplaced.fit.treeOk (hplaced.sorted hkeys)

end Created

/-! ## On a well-formed tree -/

theorem WellFormed.resolves (h : WellFormed inodeRef s.bytes) (lblock : UInt32) :
    Resolves inodeRef s lblock.toNat (s.bytes.mapping lblock.toNat) :=
  (resolvesAlike_of_seek h h.rep (Disk.addr_tree _ _ _) h.treeOk.fit (fun _ => rfl) lblock).1

/-- Where all extents and the blocks asked for end in time, new extents stay in range. -/
theorem staysInRange_of_stops {es : List Ext4Extent} (hstop : ∀ e ∈ es, stop e ≤ uint32Max)
    (hend : iblock + min maxBlocks extInitMaxLen ≤ uint32Max) : StaysInRange es iblock maxBlocks := by
  have hne {e : Ext4Extent} (he : e ∈ es) : stop e ≠ uint32Max + 1 := by
    have := hstop e he
    omega
  exact ⟨fun e he hwraps => hne he hwraps.1, Or.inr (Or.inr (Nat.le_succ_of_le hend)),
    fun _ e he heq => absurd heq (hne (List.mem_of_head? he))⟩

theorem WellFormed.staysInRange (h : WellFormed inodeRef D)
    (hend : iblock + min maxBlocks extInitMaxLen ≤ uint32Max) :
    StaysInRange D.root.items iblock maxBlocks :=
  staysInRange_of_stops (fun e he => (h.extents e he).stop_le) hend

section WellFormed

variable (h : WellFormed inodeRef s.bytes)
  (hcreated : Created inodeRef base s s' s.bytes.root iblock maxBlocks r own t')

include h hcreated

theorem Created.wellFormed (hend : iblock + min maxBlocks extInitMaxLen ≤ uint32Max)
    (hkeys : s.bytes.root.Undivided (newRun iblock r.1 r.2)) : WellFormed inodeRef s'.bytes := by
  obtain ⟨s₁, -, hplaced⟩ := hcreated.placed
  refine wellFormed_of_treeOk hplaced.rep (hcreated.treeOk hkeys) ?_
  refine inserted_stop_le hcreated.items ?_ fun e he => (h.extents e he).stop_le
  rw [stop_newRun hcreated.count_le]
  have := hcreated.le.trans runCap_le
  omega

/-- What the new tree maps the blocks to. -/
theorem Created.mapping (hcnt : inodeRef.blocksCnt ≤ pblockLimit) (v : ℕ) :
    s'.bytes.mapping v = if iblock ≤ v ∧ v < iblock + r.2 then some (r.1 + (v - iblock), false)
      else s.bytes.mapping v := by
  obtain ⟨s₁, -, hplaced⟩ := hcreated.placed
  have hitems := hcreated.new.inserted_valueAt hcreated.items (fun e he => (h.extents e he).inRange) v
  rw [stop_newRun hcreated.count_le] at hitems
  have hblock : (newRun iblock r.1 r.2).blockAt v = (r.1 + (v - iblock), false) := by
    unfold Ext4Extent.blockAt
    rw [newRun_pblock (hcreated.pblock_lt hcnt), newRun_written hcreated.count_le]
    rfl
  rw [Disk.mapping_eq_valueAt, Disk.mapping_eq_valueAt, hplaced.rep.items_root hplaced.fit.addr, hitems,
    hblock]
  rfl

omit h in
theorem Created.unmapped {k : ℕ} (hk : k < r.2) : s.bytes.mapping (iblock + k) = none := by
  rw [Disk.mapping_eq_valueAt, valueAt_eq_none_iff]
  rintro e he ⟨hle, hlt⟩
  have happart := hcreated.new.apart e he
  rw [stop_newRun hcreated.count_le] at happart
  have hfirst : first (newRun iblock r.1 r.2) = iblock := rfl
  omega

theorem Created.createsExactly (hcnt : inodeRef.blocksCnt ≤ pblockLimit)
    (hend : iblock + min maxBlocks extInitMaxLen ≤ uint32Max)
    (hkeys : s.bytes.root.Undivided (newRun iblock r.1 r.2)) :
    CreatesExactly inodeRef s s' iblock maxBlocks r := by
  refine ⟨hcreated.pos, (hcreated.le.trans runCap_le).trans (Nat.min_le_left _ _),
    fun k hk => hcreated.unmapped hk, h.resolves, fun lblock => ?_⟩
  rw [← hcreated.mapping h hcnt]
  exact (hcreated.wellFormed h hend hkeys).resolves lblock

omit h in
/-- The entry a search for a mapped block ends at after the call. -/
theorem Created.seek_of_resolves {lblock : ℕ} {o : ℕ × Bool} (hio : IoSucceeds inodeRef)
    (hresolves : Resolves inodeRef s' lblock (some o)) :
    ∃ s₁ e, Placed inodeRef .built (blockRun r.1 r.2 + base) s₁ s' s.bytes.root
      (newRun iblock r.1 r.2) own t' ∧ t'.seek lblock = some e ∧ Covers e lblock := by
  obtain ⟨s₁, -, hplaced⟩ := hcreated.placed
  obtain ⟨path, s₂, -, ⟨-, leaf, hends⟩, leaf', hleaf', hresolution⟩ :=
    wp_returns (wp_mono (wp_and (wp_findExtent_seek hplaced.rep hplaced.fit.addr
      (hplaced.rep.acceptable_all hplaced.fit.fit)) hresolves) (fun _ _ h => h)
      fun _ _ h => hio.not_failed h.2.io)
  obtain rfl : leaf = leaf' := Option.some.inj (hends.node.symm.trans hleaf')
  rw [hends.resolution, Option.bind_eq_some_iff] at hresolution
  obtain ⟨e, he, hin⟩ := hresolution
  exact ⟨s₁, e, hplaced, he, covers_of_inExtent (Option.ite_none_right_eq_some.mp hin).1⟩

/-- A key that leads away inside the run takes the block it names off the run. -/
theorem Created.noKeyInside (hio : IoSucceeds inodeRef)
    (hend : iblock + min maxBlocks extInitMaxLen ≤ uint32Max)
    (hexact : CreatesExactly inodeRef s s' iblock maxBlocks r) :
    ∀ k ∈ s.bytes.root.inner, k ≤ iblock ∨ iblock + r.2 ≤ k := by
  intro k hk
  by_contra hinside
  obtain ⟨hlt, hstop⟩ : iblock < k ∧ k < iblock + r.2 := by omega
  have hk32 : k < UInt32.size := by
    have := hcreated.le.trans runCap_le
    unfold uint32Max at hend
    show k < 4294967296
    omega
  have hresolves := hexact.after (UInt32.ofNat k)
  rw [UInt32.toNat_ofNat_of_lt' hk32, if_pos ⟨Nat.le_of_lt hlt, hstop⟩] at hresolves
  obtain ⟨s₁, e, hplaced, he, hcov⟩ := hcreated.seek_of_resolves hio hresolves
  have hfirst : first (newRun iblock r.1 r.2) = iblock := rfl
  have hstop' : stop (newRun iblock r.1 r.2) = iblock + r.2 := stop_newRun hcreated.count_le
  by_cases hstray : s.bytes.root.seek k = s.bytes.root.seek iblock
  · -- the key divides the tree
    rcases h.bushy with hdepth | hbushy
    · rw [SepTree.inner_of_depth hdepth] at hk
      cases hk
    · obtain ⟨x, hx⟩ := SepTree.exists_seek (v := iblock) hbushy
      exact SepTree.seek_divided h.sorted h.ordered (fun y hy => first_lt_stop (h.extents y hy).inRange) hk hlt hx
        (hstray.trans hx)
  · -- the entry found there was in the tree, and the run lies apart from it
    have hmem := hplaced.strays k e (by omega) (by omega) hstray he
    rcases hcreated.new.apart e hmem with hbefore | hbehind
    · have := hcov.2
      omega
    · have := hcov.1
      omega

end WellFormed

end Lemmas

/-- **Creating blocks adds exactly them to the map.** On a well-formed tree, with calls of the
block layer that succeed, an allocator that hands out only free blocks of the volume and all
blocks asked for below 2^32 - 1: what `ext4_extent_get_blocks` returns is what is mapped then,
and every other block keeps its mapping, exactly when the block was mapped before or no key that
leads away lies inside the run that the allocator granted. -/
theorem blocks_created_exactly_iff (inodeRef : InodeRef) (s : St) (iblock maxBlocks : UInt32)
    (hio : IoSucceeds inodeRef) (hcnt : inodeRef.blocksCnt ≤ pblockLimit)
    (h : WellFormed inodeRef s.bytes) (hout : HandsOut inodeRef s.bytes.root.below s.trace)
    (hend : iblock.toNat + min maxBlocks.toNat extInitMaxLen ≤ uint32Max) :
    wp (ext4ExtentGetBlocks inodeRef iblock maxBlocks true)
      (fun r s' => CreateAnswers inodeRef s s' iblock.toNat maxBlocks.toNat r ↔
        NoKeyInside s.bytes iblock.toNat maxBlocks.toNat (answersSince s s'))
      (fun _ _ => True) s := by
  have hold : Holding inodeRef .built s.bytes.root.below s s.bytes.root :=
    ⟨h.rep, h.treeOk, fun _ ha => ha, hout⟩
  refine wp_mono (wp_getBlocks_create hcnt hold hio.writes hio.neverMissing (h.staysInRange hend))
    ?_ fun _ _ _ => trivial
  rintro r s' (⟨e, he, hcov, hwritten, hreads, rfl⟩ | ⟨hfree, d', own, t', hcreated⟩)
  · refine iff_of_true ?_ (Or.inl ⟨e, he, hcov⟩)
    have hmapping : s.bytes.mapping iblock.toNat =
        some (extentGetPblock e + (iblock.toNat - first e), false) := by
      rw [Disk.mapping_eq_valueAt, valueAt_of_mem (SepTree.items_sorted h.sorted) he hcov.1
        hcov.2, ← hwritten]
      rfl
    unfold mappedAnswer
    rw [hwritten]
    refine ⟨fun p u hp => ?_, fun hnone => ?_⟩
    · obtain ⟨rfl, rfl⟩ := Prod.mk.inj (Option.some.inj (hmapping.symm.trans hp))
      exact ⟨rfl, hreads.bytes, rfl, e, he, hcov, rfl⟩
    · rw [hmapping] at hnone
      cases hnone
  · have hunmapped : s.bytes.mapping iblock.toNat = none := by
      rw [Disk.mapping_eq_valueAt]
      exact valueAt_eq_none_iff.mpr hfree
    constructor
    · intro hanswers
      refine Or.inr ?_
      rw [hcreated.granted]
      exact hcreated.noKeyInside h hio hend (hanswers.created hunmapped)
    · rintro (⟨e, he, hcov⟩ | hkeys)
      · exact absurd hcov (hfree e he)
      · rw [hcreated.granted] at hkeys
        refine ⟨fun p u hp => ?_, fun _ => hcreated.createsExactly h hcnt hend ?_⟩
        · rw [hunmapped] at hp
          cases hp
        · refine undivided_of_inner hcreated.new (fun e he => (h.extents e he).inRange) ?_
          rwa [stop_newRun hcreated.count_le]

/-! ## Runs on a small volume -/

/-- The block behind the one that was handed out. -/
def Event.behind : Event → ℕ
  | .ballocAllocBlock _ (.ok b) => b + 1
  | _ => 0

/-- The block behind all that were handed out, 300 to begin with. -/
def nextFresh (tr : List Event) : ℕ := tr.foldr (fun ev n => max ev.behind n) 300

/-- No call fails, and blocks are handed out one behind the other. -/
def risingLwext4 : Lwext4 :=
  ⟨fun _ _ => none, fun _ tr => if nextFresh tr < 1000 then .ok (nextFresh tr) else .error .enospc, 0,
    fun _ _ => 0⟩

theorem lt_nextFresh_of_held {base : Multiset ℕ} (hbase : ∀ b ∈ base, b < 300) :
    ∀ {evs : List Event} {b : ℕ}, b ∈ Ledger.held base (txns evs) → b < nextFresh evs := by
  intro evs
  induction evs with
  | nil => exact fun h => hbase _ h
  | cons ev evs ih =>
      intro b h
      have hle : nextFresh evs ≤ nextFresh (ev :: evs) := Nat.le_max_right _ _
      rcases htxn : ev.txn with _ | x
      · rw [txns, List.filterMap_cons_none htxn] at h
        exact Nat.lt_of_lt_of_le (ih h) hle
      · rw [txns, List.filterMap_cons_some htxn] at h
        cases x with
        | give first count =>
            exact Nat.lt_of_lt_of_le (ih (Multiset.mem_of_le (Multiset.sub_le_self _ _) h)) hle
        | take b' =>
            rcases Multiset.mem_cons.mp h with rfl | h
            · have hbehind : ev.behind = b + 1 := by
                unfold Event.txn at htxn
                split at htxn
                · cases htxn
                  rfl
                all_goals cases htxn
              exact Nat.lt_of_lt_of_le (by omega) (Nat.le_max_left ev.behind _)
            · exact Nat.lt_of_lt_of_le (ih h) hle

theorem le_nextFresh (tr : List Event) : 300 ≤ nextFresh tr := by
  induction tr with
  | nil => exact Nat.le_refl _
  | cons ev tr ih => exact ih.trans (Nat.le_max_right _ _)

theorem handsOut_rising {base : Multiset ℕ} (hbase : ∀ b ∈ base, b < 300) :
    HandsOut (sampleVolume risingLwext4) base [] := by
  intro goal evs b hb
  have hanswer : (if nextFresh (evs ++ []) < 1000 then .ok (nextFresh (evs ++ [])) else .error .enospc :
      Except Errno ℕ) = .ok b := hb
  rw [List.append_nil] at hanswer
  split at hanswer
  · rename_i hlt
    cases hanswer
    have hpos : 0 < nextFresh evs := Nat.lt_of_lt_of_le (by decide) (le_nextFresh evs)
    exact ⟨Nat.pos_iff_ne_zero.mp hpos, hlt,
      fun hmem => absurd (lt_nextFresh_of_held hbase hmem) (Nat.lt_irrefl _)⟩
  · cases hanswer

theorem resultOf_bind {α β : Type} {m : M α} {f : α → M β} {s : St} {b : β}
    (h : resultOf ((m >>= f) s) = some b) :
    ∃ a s', m s = .ok a s' ∧ resultOf (f a s') = some b := by
  obtain ⟨s', hrun⟩ := resultOf_eq_some h
  obtain ⟨a, s₁, hm, hf⟩ := ok_of_bind hrun
  exact ⟨a, s₁, hm, by rw [hf]; rfl⟩

/-- The error a run stops with. -/
def errorOf {α : Type} (m : M α) : M (Option Errno) := do
  match ← m.attempt with
  | .ok _ => pure none
  | .error e => pure (some e)

theorem err_of_errorOf {α : Type} {m : M α} {s : St} {e : Errno}
    (h : resultOf (errorOf m s) = some (some e)) : ∃ s', m s = .err e s' := by
  rcases hm : m s with ⟨a, s'⟩ | ⟨e', s'⟩ | x
  all_goals
    have hrun := h
    unfold errorOf at hrun
    change resultOf (andThen (attempt m) _ s) = _ at hrun
    unfold andThen attempt at hrun
    rw [hm] at hrun
  · cases hrun
  · cases hrun
    exact ⟨s', rfl⟩
  · cases hrun

/-- A search that fails although no call does. -/
theorem not_searchable {s : St} {lblock : ℕ} {e : Errno} (hio : IoSucceeds inodeRef)
    (h : resultOf (errorOf (findExtent inodeRef lblock) s) = some (some e)) :
    ¬ Searchable inodeRef s := by
  intro hsearch
  obtain ⟨s', hfails⟩ := err_of_errorOf h
  exact hio.not_failed (wp_err (hsearch lblock) hfails).io

theorem coherent_oneExtentDisk : Coherent (sampleVolume risingLwext4) oneExtentDisk :=
  (wellFormed_leafBytes ⟨0, 1, 0, 200⟩ (by decide +kernel) (by decide +kernel)
    ⟨by decide, by decide⟩).coherent

theorem below_oneExtentDisk : ∀ b ∈ oneExtentDisk.root.below, b < 300 := by
  have hdepth : oneExtentDisk.rootDepth = 0 := by decide +kernel
  unfold Disk.root
  rw [hdepth]
  exact fun b hb => absurd hb (Multiset.notMem_zero b)

theorem below_keyGapDisk : ∀ b ∈ keyGapDisk.root.below, b < 300 := by
  have hdepth : keyGapDisk.rootDepth = 1 := by decide +kernel
  have hchildren : (keyGapDisk.slots .root).map (·.child) = [(0, 100), (5, 101)] := by
    decide +kernel
  unfold Disk.root
  rw [hdepth, Disk.tree_one, hchildren]
  intro b hb
  have hmem : b ∈ ({100} + ({101} + 0) : Multiset ℕ) := hb
  simp only [Multiset.mem_add, Multiset.mem_singleton, Multiset.notMem_zero, or_false] at hmem
  rcases hmem with rfl | rfl
  · decide
  · decide

/-- The keys of this tree that lead away. -/
theorem inner_keyGapDisk : keyGapDisk.root.inner = [5] := by
  have hdepth : keyGapDisk.rootDepth = 1 := by decide +kernel
  have hchildren : (keyGapDisk.slots .root).map (·.child) = [(0, 100), (5, 101)] := by
    decide +kernel
  unfold Disk.root
  rw [hdepth, Disk.tree_one, hchildren]
  rfl

attribute [local irreducible] wp

/-- Blocks 2 to 4, up to the key 5, are created as the call says. -/
theorem blocks_created_exactly_iff_gap :
    ∃ r s', ext4ExtentGetBlocks (sampleVolume risingLwext4) 2 3 true ⟨keyGapDisk, false, []⟩ =
        .ok r s' ∧ r = (300, 3) ∧
      CreateAnswers (sampleVolume risingLwext4) ⟨keyGapDisk, false, []⟩ s' (UInt32.toNat 2)
        (UInt32.toNat 3) r := by
  obtain ⟨r, s', hrun, hgranted⟩ := resultOf_bind (show resultOf
    ((ext4ExtentGetBlocks (sampleVolume risingLwext4) 2 3 true >>= fun r => getState >>= fun s' =>
        pure (r, granted (runCap [⟨0, 1, 0, 200⟩, ⟨100, 1, 0, 201⟩] 2 3)
          (answersSince ⟨keyGapDisk, false, []⟩ s')))
      ⟨keyGapDisk, false, []⟩) = some ((300, 3), (300, 3)) by decide +kernel)
  obtain ⟨rfl, hlen⟩ := Prod.mk.inj (show (r, granted (runCap [⟨0, 1, 0, 200⟩, ⟨100, 1, 0, 201⟩]
    2 3) (answersSince ⟨keyGapDisk, false, []⟩ s')) = ((300, 3), (300, 3)) from
      Option.some.inj hgranted)
  have hexact := wp_ok (blocks_created_exactly_iff (sampleVolume risingLwext4)
    ⟨keyGapDisk, false, []⟩ 2 3 (fun _ _ => rfl) (by decide) wellFormed_keyGapDisk
    (handsOut_rising below_keyGapDisk) (by decide)) hrun
  refine ⟨_, s', hrun, rfl, hexact.mpr (Or.inr fun k hk => Or.inr ?_)⟩
  rw [inner_keyGapDisk, List.mem_singleton] at hk
  rw [hk, items_keyGapDisk]
  exact (congrArg (fun g : ℕ × ℕ => 2 + g.2) hlen).le

/-- Blocks 2 to 5 are created in front of the key 5: a search for block 5 then ends in the
other leaf, and finds it unmapped. -/
theorem created_across_key :
    WellFormed (sampleVolume risingLwext4) keyGapDisk ∧
      HandsOut (sampleVolume risingLwext4) keyGapDisk.root.below [] ∧
      ∃ r s', ext4ExtentGetBlocks (sampleVolume risingLwext4) 2 4 true ⟨keyGapDisk, false, []⟩ =
          .ok r s' ∧
        r = (300, 4) ∧ keyGapDisk.mapping 2 = none ∧
        ¬ CreatesExactly (sampleVolume risingLwext4) ⟨keyGapDisk, false, []⟩ s' 2 4 r := by
  refine ⟨wellFormed_keyGapDisk, handsOut_rising below_keyGapDisk, ?_⟩
  obtain ⟨r, s', hrun, hfound⟩ := resultOf_bind (show resultOf
    ((ext4ExtentGetBlocks (sampleVolume risingLwext4) 2 4 true >>= fun r =>
      findExtent (sampleVolume risingLwext4) 5 >>= fun path =>
        pure (r, path.path[path.depth]?.bind fun leaf => leaf.resolution 5))
      ⟨keyGapDisk, false, []⟩) = some ((300, 4), none) by decide +kernel)
  obtain ⟨path, s'', hpath, hresult⟩ := resultOf_bind hfound
  obtain ⟨rfl, hnone⟩ := Prod.mk.inj (Option.some.inj hresult)
  refine ⟨_, s', hrun, rfl, by decide +kernel, fun h => ?_⟩
  obtain ⟨leaf, hleaf, hres⟩ := wp_ok (h.after 5) hpath
  rw [hleaf] at hnone
  have hsome : leaf.resolution 5 = some (303, false) := hres
  rw [Option.bind_some, hsome] at hnone
  cases hnone

end EspLwext4
