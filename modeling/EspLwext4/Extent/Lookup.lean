import EspLwext4.Extent.Located

/-!
# What a lookup answers

On a tree of acceptable nodes `find_extent` ends where `seek` does, whatever its
separators are. Where these bound what is below them, the extent that covers a block
is the one found, so a lookup answers as a linear scan over all leaf extents would.

The membership tests add in 32 bits what the validators add in 64. They agree but for
an extent that ends at 2^32 (`membership_exact_iff`).
-/

namespace EspLwext4

open Prog Bytes Ranged

variable (inodeRef : InodeRef)

/-- The extent covers `lblock`, over the integers. -/
def Covers (e : Ext4Extent) (lblock : ℕ) : Prop := first e ≤ lblock ∧ lblock < stop e

instance (e : Ext4Extent) (lblock : ℕ) : Decidable (Covers e lblock) := by
  unfold Covers
  infer_instance

/-- A tree as the checks of the code admit it, with keys that bound what is below them. -/
structure Admitted (D : Disk) : Prop where
  nodes : D.root.All (AcceptableAt inodeRef D)
  bounded : D.root.Bounded

/-- The entry a path ends at. -/
def ExtentPathNode.found (leaf : ExtentPathNode) : Option Ext4Extent :=
  if leaf.haveExtent then some leaf.extent else none

/-- What a path for `lblock` ends with on the tree `t`. -/
structure EndsAt {d : ℕ} (t : SepTree Ext4Extent d) (lblock : ℕ) (path : ExtentSearchPath)
    (leaf : ExtentPathNode) : Prop where
  node : path.path[path.depth]? = some leaf
  found : leaf.found = t.seek lblock
  count : leaf.haveExtent = true ↔ 0 < leaf.header.entriesCount
  pblock : leaf.pblock = leaf.resolve lblock

section Nodes

variable {inodeRef} {g : Grade} {D : Disk} {d e lblock : ℕ}

theorem Rep.fit {t : SepTree Ext4Extent d} (h : Rep inodeRef g D t)
    (ha : t.All (AcceptableAt inodeRef D)) : t.All (FitAt inodeRef) :=
  (h.and ha).imp fun _ _ hu => hu.1.acceptable_iff.mp hu.2

theorem Rep.sorted {t : SepTree Ext4Extent d} (h : Rep inodeRef g D t)
    (ha : t.All (AcceptableAt inodeRef D)) : t.Sorted := (h.fit ha).imp fun _ _ hu => hu.sortedAt

/-- The extents of leaves that pass the checks are in range. -/
theorem inRange_of_fit {t : SepTree Ext4Extent d} (h : t.All (FitAt inodeRef)) :
    ∀ x ∈ t.items, extentInRange inodeRef x = true := by
  induction t with
  | leaf b es => exact (SepTree.all_leaf.mp h).inRange
  | node b cs ih =>
      intro x hx
      obtain ⟨c, hc, hx⟩ := List.mem_flatMap.mp hx
      exact ih c hc ((SepTree.all_node.mp h).2 c hc) x hx

theorem Rep.inRange {t : SepTree Ext4Extent d} (h : Rep inodeRef g D t)
    (ha : t.All (AcceptableAt inodeRef D)) : ∀ x ∈ t.items, extentInRange inodeRef x = true :=
  inRange_of_fit (h.fit ha)

theorem Cursor.pick_eq {leaf : ExtentPathNode} {es : List Ext4Extent} (h : Cursor lblock leaf es)
    (hs : (es.map first).Pairwise (· ≤ ·)) : pick first lblock es = leaf.found := by
  rw [List.pairwise_map] at hs
  unfold ExtentPathNode.found
  cases h with
  | empty _ hhave => rw [hhave]; rfl
  | entry l x r _ hextent hhave hle hlt =>
      rw [if_pos hhave, hextent]
      exact EspLwext4.pick_eq hs hle hlt

theorem Located.seek_eq {t : SepTree Ext4Extent e} {path : ExtentSearchPath}
    {c : Ctx Ext4Extent 0 e} {b : ℕ} {es : List Ext4Extent} {leaf : ExtentPathNode}
    (h : Located inodeRef D t lblock path c b es leaf) (hs : t.Sorted) :
    leaf.found = t.seek lblock := by
  have hall := (Ctx.all_plug c (.leaf b es)).mp (h.plug ▸ hs)
  rw [← h.plug, Ctx.seek_plug h.chosen hall.2]
  exact (h.leafAt.cursor.pick_eq hall.1).symm

/-- A path over a tree of acceptable nodes ends where the search by keys does. -/
theorem wp_findExtent_seek {t : SepTree Ext4Extent e} {s : St} (hrep : Rep inodeRef g s.bytes t)
    (haddr : t.addr = 0) (hall : t.All (AcceptableAt inodeRef s.bytes)) :
    wp (findExtent inodeRef lblock)
      (fun path s' => Reads s s' ∧ ∃ leaf, EndsAt t lblock path leaf)
      (fun err s' => Reads s s' ∧ ReadFailed inodeRef s s' .findExtent err) s := by
  refine wp_mono (wp_findExtent_acceptable hrep haddr hall) ?_ fun _ _ h => h
  rintro path s' ⟨hreads, c, b, es, leaf, hloc, hpblock⟩
  refine ⟨hreads, leaf, hloc.leafNode, hloc.seek_eq (hrep.sorted hall), ?_, hpblock⟩
  have hcount := hloc.leafAt.count
  cases hloc.leafAt.cursor with
  | empty _ hhave => rw [hhave, hcount]; simp
  | entry l x r _ _ hhave _ _ => rw [hhave, hcount]; simp

theorem Admitted.rep (h : Admitted inodeRef D) : Rep inodeRef .accepted D D.root :=
  rep_tree 0 (h.nodes.imp fun _ _ hu => ⟨hu.toStanding, nofun⟩)

theorem WellFormed.admitted (h : WellFormed inodeRef D) : Admitted inodeRef D :=
  ⟨h.treeOk.acceptable_all h.rep, SepTree.bounded_of_sorted h.sorted⟩

theorem Admitted.seek_covers (h : Admitted inodeRef D) {x : Ext4Extent} (hx : x ∈ D.root.items)
    (hcov : Covers x lblock) : D.root.seek lblock = some x :=
  SepTree.seek_covers h.bounded (h.rep.sorted h.nodes) hx hcov.1 hcov.2

/-- What a search for `lblock` on an admitted tree ends with. -/
theorem Admitted.wp_findExtent {s : St} (h : Admitted inodeRef s.bytes) :
    wp (findExtent inodeRef lblock)
      (fun path s' => Reads s s' ∧ ∃ leaf, EndsAt s.bytes.root lblock path leaf)
      (fun err s' => Reads s s' ∧ ReadFailed inodeRef s s' .findExtent err) s :=
  wp_findExtent_seek h.rep (Disk.addr_tree _ _ _) h.nodes

end Nodes

/-! ## Membership in 32 bits -/

section Membership

variable {inodeRef} {e : Ext4Extent} {lblock : ℕ} {leaf : ExtentPathNode}

/-- The extent ends at 2^32 and starts at or before `lblock`. -/
def WrapsAround (e : Ext4Extent) (lblock : ℕ) : Prop :=
  stop e = uint32Max + 1 ∧ first e ≤ lblock

/-- The 32-bit test is right unless the end of the extent wraps around. -/
theorem inExtent_iff (he : extentInRange inodeRef e = true) (hlblock : lblock ≤ uint32Max) :
    (inExtent e lblock = true ↔ Covers e lblock) ↔ ¬ WrapsAround e lblock := by
  obtain ⟨hlen, hstop, -⟩ := extentInRange_iff.mp he
  unfold inExtent Covers WrapsAround
  unfold uint32Max at *
  rw [first_extent, stop_extent, Bool.and_eq_true, decide_eq_true_eq, decide_eq_true_eq]
  rcases Nat.lt_or_eq_of_le hstop with hlt | heq
  · rw [u32_of_lt hlt]
    omega
  · rw [heq]
    show (e.firstBlock ≤ lblock ∧ lblock < 0 ↔ _) ↔ _
    omega

/-- The answer to a lookup that ends at the extent `e`. -/
def mappedAnswer (e : Ext4Extent) (lblock maxBlocks : ℕ) : ℕ × ℕ :=
  if extentIsUnwritten e then (0, 0)
  else (extentGetPblock e + (lblock - first e), min maxBlocks (stop e - lblock))

/-- The answer to a lookup that ends at the entry `found`. -/
def lookupAnswer (found : Option Ext4Extent) (lblock maxBlocks : ℕ) : ℕ × ℕ :=
  match found with
  | some e => if inExtent e lblock then mappedAnswer e lblock maxBlocks else (0, 0)
  | none => (0, 0)

theorem mappedAt_iff {found : Option Ext4Extent} (hfound : leaf.found = found)
    (hcount : leaf.haveExtent = true ↔ 0 < leaf.header.entriesCount) :
    mappedAt leaf lblock ↔ ∃ e, found = some e ∧ leaf.extent = e ∧ inExtent e lblock = true := by
  subst hfound
  unfold mappedAt ExtentPathNode.found
  constructor
  · rintro ⟨hhave, -, hin⟩
    exact ⟨_, if_pos hhave, rfl, hin⟩
  · rintro ⟨e, hsome, rfl, hin⟩
    obtain ⟨hhave, -⟩ := Option.ite_none_right_eq_some.mp hsome
    exact ⟨hhave, hcount.mp hhave, hin⟩

/-- Blocks left of an extent from `lblock` on, as `ext4_extent_get_blocks` counts them. -/
theorem sub32_actualLen (he : extentInRange inodeRef e = true) (hin : inExtent e lblock = true) :
    sub32 (extentGetActualLen e) (lblock - e.firstBlock) = stop e - lblock := by
  obtain ⟨-, hstop, -⟩ := extentInRange_iff.mp he
  unfold inExtent at hin
  rw [Bool.and_eq_true, decide_eq_true_eq, decide_eq_true_eq] at hin
  obtain ⟨hle, hlt⟩ := hin
  have hne : e.firstBlock + extentGetActualLen e ≠ 4294967296 := by
    intro heq
    rw [heq] at hlt
    exact absurd hlt (Nat.not_lt_zero lblock)
  rw [u32_of_lt (by omega)] at hlt
  rw [sub32_of_le (by omega) (by omega), stop_extent]
  omega

end Membership

/-! ## A lookup -/

section Lookup

variable {inodeRef} {s : St} {lblock maxBlocks : UInt32}

/-- The mapped branch of `ext4_extent_get_blocks`. -/
theorem getBlocks_mapped {E : Errno → St → Prop} {Q : ℕ × ℕ → St → Prop} {create : Bool}
    {leaf : ExtentPathNode} {e : Ext4Extent}
    (he : extentInRange inodeRef e = true) (hin : inExtent e lblock.toNat = true)
    (hextent : leaf.extent = e)
    (hunwritten : extentIsUnwritten e = true → create = true → E .enotsup s)
    (hQ : (extentIsUnwritten e = true → create = false) →
      Q (mappedAnswer e lblock.toNat maxBlocks.toNat) s) :
    wp (if extentIsUnwritten leaf.extent then
          if create then raise .enotsup else pure (0, 0)
        else
          let off := lblock.toNat - leaf.extent.firstBlock
          pure (extentGetPblock leaf.extent + off,
            min maxBlocks.toNat (sub32 (extentGetActualLen leaf.extent) off)) : M (ℕ × ℕ))
      Q E s := by
  subst hextent
  unfold mappedAnswer at hQ
  rw [wp_ite]
  refine ⟨fun hu => ?_, fun hu => ?_⟩
  · rw [if_pos hu] at hQ
    rw [wp_ite]
    refine ⟨fun hcreate => hunwritten hu hcreate, fun hcreate => ?_⟩
    exact hQ fun _ => Bool.eq_false_iff.mpr hcreate
  · rw [if_neg hu] at hQ
    have hanswer := hQ fun hu' => absurd hu' hu
    rw [wp_pure, sub32_actualLen he hin]
    exact hanswer

/-- A lookup on a tree of acceptable nodes reads off the entry the search ends at. -/
theorem wp_lookup {g : Grade} {d : ℕ} {t : SepTree Ext4Extent d} (hrep : Rep inodeRef g s.bytes t)
    (haddr : t.addr = 0) (hall : t.All (AcceptableAt inodeRef s.bytes)) :
    wp (ext4ExtentGetBlocks inodeRef lblock maxBlocks false)
      (fun r s' => Reads s s' ∧
        r = lookupAnswer (t.seek lblock.toNat) lblock.toNat maxBlocks.toNat)
      (fun err s' => Reads s s' ∧ ReadFailed inodeRef s s' .findExtent err) s := by
  unfold ext4ExtentGetBlocks
  dsimp only
  rw [wp_bind]
  refine wp_mono (wp_findExtent_seek hrep haddr hall) ?_ fun _ _ h => h
  rintro path s' ⟨hreads, leaf, hends⟩
  rw [wp_bind, wp_node]
  refine ⟨leaf, hends.node, ?_⟩
  rw [wp_ite]
  constructor
  · intro hmapped
    obtain ⟨e, hseek, hextent, hin⟩ := (mappedAt_iff hends.found hends.count).mp hmapped
    have he := hrep.inRange hall e (SepTree.seek_mem hseek)
    refine getBlocks_mapped he hin hextent (fun _ h => nomatch h) fun _ => ⟨hreads, ?_⟩
    rw [hseek]
    exact (if_pos hin).symm
  · intro hmapped
    rw [if_pos rfl, wp_pure]
    refine ⟨hreads, ?_⟩
    unfold lookupAnswer
    rcases hseek : t.seek lblock.toNat with _ | e
    · rfl
    · refine (if_neg fun hin => hmapped ?_).symm
      have hfound : leaf.found = some e := hends.found.trans hseek
      obtain ⟨-, hextent⟩ := Option.ite_none_right_eq_some.mp hfound
      exact (mappedAt_iff hends.found hends.count).mpr ⟨e, hseek, Option.some.inj hextent, hin⟩

end Lookup

/-! ## A linear scan -/

/-- The answer of a linear scan over the leaf extents `es`. -/
def scanAnswer (es : List Ext4Extent) (lblock maxBlocks : ℕ) : ℕ × ℕ :=
  match es.find? fun e => Covers e lblock with
  | some e => mappedAnswer e lblock maxBlocks
  | none => (0, 0)

/-- No block read fails. -/
def ReadsSucceed : Prop := ∀ site b tr, inodeRef.lwext4.io (.transBlockGet site b) tr = none

section Scan

variable {inodeRef} {s : St} {lblock maxBlocks : ℕ}

theorem ReadsSucceed.not_failed (h : ReadsSucceed inodeRef) {s' : St} {site : Site} {e : Errno} :
    ¬ ReadFailed inodeRef s s' site e := by
  rintro ⟨b, tr, -, hfail, -⟩
  rw [h] at hfail
  cases hfail

/-- The tree search finds what the scan finds. -/
theorem Admitted.lookupAnswer_eq (h : Admitted inodeRef s.bytes) (hlblock : lblock ≤ uint32Max)
    (hend : ∀ e ∈ s.bytes.root.items, stop e ≤ uint32Max) :
    lookupAnswer (s.bytes.root.seek lblock) lblock maxBlocks =
      scanAnswer s.bytes.root.items lblock maxBlocks := by
  have hin {e : Ext4Extent} (he : e ∈ s.bytes.root.items) :
      inExtent e lblock = true ↔ Covers e lblock := by
    refine (inExtent_iff (h.rep.inRange h.nodes e he) hlblock).mpr ?_
    rintro ⟨hstop, -⟩
    have := hend e he
    omega
  unfold scanAnswer
  rcases hfind : s.bytes.root.items.find? fun e => Covers e lblock with _ | e
  · unfold lookupAnswer
    rcases hseek : s.bytes.root.seek lblock with _ | x
    · rfl
    · have hx := SepTree.seek_mem hseek
      refine if_neg fun hcov => ?_
      have := List.find?_eq_none.mp hfind x hx
      exact this (decide_eq_true ((hin hx).mp hcov))
  · have he := List.mem_of_find?_eq_some hfind
    have hcov : Covers e lblock := by simpa using List.find?_some hfind
    rw [h.seek_covers he hcov]
    exact if_pos ((hin he).mpr hcov)

end Scan

/-- `r` is what a lookup of `lblock` has to answer. -/
structure LookupAnswers (D : Disk) (lblock maxBlocks : ℕ) (r : ℕ × ℕ) : Prop where
  scan : r = scanAnswer D.root.items lblock maxBlocks
  mapped : ∀ e ∈ D.root.items, extentIsUnwritten e = false → Covers e lblock →
    r = (extentGetPblock e + (lblock - first e), min maxBlocks (stop e - lblock))
  hole : r = (0, 0) ↔ ∀ e ∈ D.root.items, Covers e lblock → extentIsUnwritten e = true

/-- At most one extent covers a block, so the scan finds it. -/
theorem Admitted.scanAnswers {inodeRef : InodeRef} {D : Disk} {lblock : ℕ} (maxBlocks : ℕ)
    (h : Admitted inodeRef D) :
    LookupAnswers D lblock maxBlocks (scanAnswer D.root.items lblock maxBlocks) := by
  have hscan {e : Ext4Extent} (he : e ∈ D.root.items) (hcov : Covers e lblock) :
      scanAnswer D.root.items lblock maxBlocks = mappedAnswer e lblock maxBlocks := by
    unfold scanAnswer
    rcases hfind : D.root.items.find? fun e => Covers e lblock with _ | x
    · exact absurd (decide_eq_true hcov) (List.find?_eq_none.mp hfind e he)
    · have hx : Covers x lblock := by simpa using List.find?_some hfind
      have heq := (h.seek_covers he hcov).symm.trans (h.seek_covers (List.mem_of_find?_eq_some hfind) hx)
      rw [Option.some.inj heq]
  refine ⟨rfl, fun e he hwritten hcov => ?_, ?_, ?_⟩
  · rw [hscan he hcov]
    exact if_neg (by rw [hwritten]; exact Bool.false_ne_true)
  · intro hzero e he hcov
    by_contra hwritten
    rw [hscan he hcov] at hzero
    unfold mappedAnswer at hzero
    rw [if_neg hwritten] at hzero
    have hp := (extentInRange_iff.mp (h.rep.inRange h.nodes e he)).2.2.1
    have hzero := congrArg Prod.fst hzero
    dsimp only at hzero
    omega
  · intro hall
    unfold scanAnswer
    rcases hfind : D.root.items.find? fun e => Covers e lblock with _ | x
    · rfl
    · have hx : Covers x lblock := by simpa using List.find?_some hfind
      exact if_pos (hall x (List.mem_of_find?_eq_some hfind) hx)

/-- **A lookup is a linear scan.** On every admitted tree whose extents end at or before
2^32 - 1 a lookup returns, changes nothing and answers as a scan over all leaf extents. -/
theorem lookup_scans (inodeRef : InodeRef) (s : St) (lblock maxBlocks : UInt32)
    (h : Admitted inodeRef s.bytes) (hend : ∀ e ∈ s.bytes.root.items, stop e ≤ uint32Max)
    (hreads : ReadsSucceed inodeRef) :
    ∃ r s', ext4ExtentGetBlocks inodeRef lblock maxBlocks false s = .ok r s' ∧ Reads s s' ∧
      LookupAnswers s.bytes lblock.toNat maxBlocks.toNat r := by
  refine wp_returns (wp_mono (wp_lookup h.rep (Disk.addr_tree _ _ _) h.nodes) ?_ ?_)
  · rintro r s' ⟨hs', rfl⟩
    have hlblock : lblock.toNat ≤ uint32Max := Nat.le_of_lt_succ lblock.toNat_lt
    rw [h.lookupAnswer_eq hlblock hend]
    exact ⟨hs', h.scanAnswers _⟩
  · rintro err s' ⟨-, hfailed⟩
    exact absurd hfailed hreads.not_failed

/-! ## The end of the logical space -/

/-- The 32-bit tests at `lblock` are right, so that a lookup of a covered block finds its
extent and an insertion there is rejected, unless a block cannot be read. -/
structure MembershipExact (s : St) (lblock : UInt32) : Prop where
  tests : ∀ e ∈ s.bytes.root.items, inExtent e lblock.toNat = true ↔ Covers e lblock.toNat
  found : ∀ e ∈ s.bytes.root.items, Covers e lblock.toNat →
    wp (findExtent inodeRef lblock.toNat)
      (fun path _ => ∃ leaf, path.path[path.depth]? = some leaf ∧ leaf.found = some e ∧
        leaf.pblock = extentGetPblock e + (lblock.toNat - first e))
      (fun err s' => ReadFailed inodeRef s s' .findExtent err) s
  mapped : ∀ e ∈ s.bytes.root.items, Covers e lblock.toNat → ∀ maxBlocks create,
    wp (ext4ExtentGetBlocks inodeRef lblock maxBlocks create)
      (fun r s' => s'.bytes = s.bytes ∧ r = mappedAnswer e lblock.toNat maxBlocks.toNat)
      (fun err s' => ReadFailed inodeRef s s' .findExtent err ∨
        err = .enotsup ∧ extentIsUnwritten e = true ∧ create = true) s
  rejected : ∀ e ∈ s.bytes.root.items, Covers e lblock.toNat → ∀ calls newExtent,
    wp (insertExtent inodeRef (calls + 1) lblock.toNat newExtent) (fun _ _ => False)
      (fun err s' => s'.bytes = s.bytes ∧
        (ReadFailed inodeRef s s' .findExtent err ∨ err = .eexist)) s

section End

variable {inodeRef} {s : St} {lblock : UInt32} {e : Ext4Extent}

/-- A search for a covered block ends at the extent, with the test on it true. -/
theorem Admitted.wp_findExtent_covered (h : Admitted inodeRef s.bytes)
    (he : e ∈ s.bytes.root.items) (hcov : Covers e lblock.toNat)
    (hin : inExtent e lblock.toNat = true) :
    wp (findExtent inodeRef lblock.toNat)
      (fun path s' => Reads s s' ∧ ∃ leaf, path.path[path.depth]? = some leaf ∧
        leaf.found = some e ∧ mappedAt leaf lblock.toNat ∧
        leaf.pblock = extentGetPblock e + (lblock.toNat - first e))
      (fun err s' => Reads s s' ∧ ReadFailed inodeRef s s' .findExtent err) s := by
  refine wp_mono h.wp_findExtent ?_ fun _ _ h => h
  rintro path s' ⟨hreads, leaf, hends⟩
  have hseek := h.seek_covers he hcov
  have hfound : leaf.found = some e := hends.found.trans hseek
  obtain ⟨hhave, hextent⟩ := Option.ite_none_right_eq_some.mp hfound
  have hextent : leaf.extent = e := Option.some.inj hextent
  refine ⟨hreads, leaf, hends.node, hfound, ?_, ?_⟩
  · exact (mappedAt_iff hends.found hends.count).mpr ⟨e, hseek, hextent, hin⟩
  · rw [hends.pblock]
    unfold ExtentPathNode.resolve
    rw [hextent, if_pos ⟨hhave, hin⟩, first_extent]

end End

/-- **Where membership is exact.** On an admitted tree the 32-bit tests at `lblock` are
right if and only if no extent that starts at or before `lblock` ends at 2^32. -/
theorem membership_exact_iff (inodeRef : InodeRef) (s : St) (lblock : UInt32)
    (h : Admitted inodeRef s.bytes) :
    MembershipExact inodeRef s lblock ↔
      ∀ e ∈ s.bytes.root.items, ¬ WrapsAround e lblock.toNat := by
  have hlblock : lblock.toNat ≤ uint32Max := Nat.le_of_lt_succ lblock.toNat_lt
  have hrange := h.rep.inRange h.nodes
  constructor
  · intro hexact e he
    exact (inExtent_iff (hrange e he) hlblock).mp (hexact.tests e he)
  · intro hwraps
    have htests : ∀ e ∈ s.bytes.root.items, inExtent e lblock.toNat = true ↔ Covers e lblock.toNat :=
      fun e he => (inExtent_iff (hrange e he) hlblock).mpr (hwraps e he)
    refine ⟨htests, ?_, ?_, ?_⟩
    · intro e he hcov
      refine wp_mono (h.wp_findExtent_covered he hcov ((htests e he).mpr hcov)) ?_ fun _ _ h => h.2
      rintro path s' ⟨-, leaf, hnode, hfound, -, hpblock⟩
      exact ⟨leaf, hnode, hfound, hpblock⟩
    · intro e he hcov maxBlocks create
      have hin := (htests e he).mpr hcov
      unfold ext4ExtentGetBlocks
      dsimp only
      rw [wp_bind]
      refine wp_mono (h.wp_findExtent_covered he hcov hin) ?_ fun _ _ h => Or.inl h.2
      rintro path s' ⟨hreads, leaf, hnode, hfound, hmapped, -⟩
      obtain ⟨-, hextent⟩ := Option.ite_none_right_eq_some.mp hfound
      rw [wp_bind, wp_node]
      refine ⟨leaf, hnode, ?_⟩
      rw [wp_ite]
      refine ⟨fun _ => ?_, fun hn => absurd hmapped hn⟩
      refine getBlocks_mapped (hrange e he) hin (Option.some.inj hextent) ?_ ?_
      · exact fun hu hcreate => Or.inr ⟨rfl, hu, hcreate⟩
      · exact fun _ => ⟨hreads.bytes, rfl⟩
    · intro e he hcov calls newExtent
      have hin := (htests e he).mpr hcov
      unfold insertExtent insertExtentBody
      rw [wp_bind]
      refine wp_mono (h.wp_findExtent_covered he hcov hin) ?_
        fun _ _ h => ⟨h.1.bytes, Or.inl h.2⟩
      rintro path s' ⟨hreads, leaf, hnode, hfound, ⟨hhave, hcount, hleaf⟩, -⟩
      rw [wp_bind, wp_node]
      refine ⟨leaf, hnode, ?_⟩
      rw [if_neg (Nat.pos_iff_ne_zero.mp hcount), if_pos hhave]
      dsimp only
      rw [if_pos hleaf, wp_raise]
      exact ⟨hreads.bytes, Or.inr rfl⟩

/-! ## Trees of one leaf -/

section Leaf

variable {inodeRef} {D : Disk}

/-- An admitted tree that is one leaf. -/
theorem admitted_of_leaf (hdepth : (D.header .root).depth = 0)
    (hheader : HeaderOk inodeRef .root (D.header .root))
    (hentries : LeafEntriesOk inodeRef (D.slots .root)) : Admitted inodeRef D := by
  have hroot : D.rootDepth = 0 := hdepth
  constructor
  · unfold Disk.root
    rw [hroot]
    have hok : EntriesOk inodeRef D .root (D.header .root) := by
      unfold EntriesOk
      rw [if_pos hdepth]
      exact hentries
    exact SepTree.all_leaf.mpr ⟨⟨hheader, hdepth, fun h => absurd rfl h⟩, hok, fun h => absurd rfl h⟩
  · unfold Disk.root
    rw [hroot]
    exact hentries.sorted

/-- A well-formed tree that is one leaf. -/
theorem wellFormed_of_leaf (hdepth : (D.header .root).depth = 0)
    (hheader : HeaderOk inodeRef .root (D.header .root))
    (hsorted : ((D.slots .root).flatMap fun e => [first e, stop e]).Pairwise (· ≤ ·))
    (hextents : ∀ e ∈ D.slots .root, ExtentOk inodeRef e) : WellFormed inodeRef D := by
  have hroot : D.rootDepth = 0 := hdepth
  have hstanding : Standing inodeRef D 0 0 := ⟨hheader, hdepth, fun h => absurd rfl h⟩
  refine ⟨?_, Or.inl hroot, ?_, ?_, ?_, ?_⟩
  all_goals
    unfold Disk.root
    rw [hroot]
  · exact SepTree.all_leaf.mpr ⟨hstanding, fun _ h => absurd rfl h⟩
  · trivial
  · exact hsorted
  · trivial
  · exact hextents

theorem items_of_leaf (hdepth : (D.header .root).depth = 0) : D.root.items = D.slots .root := by
  have hroot : D.rootDepth = 0 := hdepth
  unfold Disk.root
  rw [hroot]
  rfl

theorem Disk.tree_one (D : Disk) : D.tree 1 0 = .node 0 (((D.slots .root).map (·.child)).map
    fun c => (c.1, .leaf c.2 (D.slots (Place.of c.2)))) := by
  show SepTree.node 0 ((D.slots .root).map fun e => (e.child.1, D.tree 0 e.child.2)) = _
  rw [List.map_map]
  rfl

/-- A well-formed tree of depth 1. -/
theorem wellFormed_of_leaves {cs : List (ℕ × ℕ)} (hroot : Standing inodeRef D 1 0)
    (hchildren : (D.slots .root).map (·.child) = cs) (hne : cs ≠ [])
    (hleaves : ∀ c ∈ cs, c.2 ≠ 0 ∧ c.2 < inodeRef.blocksCnt ∧ Standing inodeRef D 0 c.2 ∧
      (D.header (Place.of c.2)).maxEntriesCount = capacity inodeRef ∧ D.slots (Place.of c.2) ≠ [])
    (hordered : (cs.map fun c => c.1).Pairwise (· < ·))
    (hsorted : (cs.flatMap fun c =>
      c.1 :: (D.slots (Place.of c.2)).flatMap fun e => [first e, stop e]).Pairwise (· ≤ ·))
    (hextents : ∀ c ∈ cs, ∀ e ∈ D.slots (Place.of c.2), ExtentOk inodeRef e) :
    WellFormed inodeRef D := by
  have hdepth : D.rootDepth = 1 := hroot.depth
  have htree : D.tree 1 0 = .node 0 (cs.map fun c => (c.1, .leaf c.2 (D.slots (Place.of c.2)))) := by
    rw [D.tree_one, hchildren]
  refine ⟨?_, ?_, ?_, ?_, ?_, ?_⟩
  all_goals
    unfold Disk.root
    rw [hdepth, htree]
  · refine SepTree.all_node.mpr ⟨⟨hroot, fun _ h => absurd rfl h⟩, fun c hc => ?_⟩
    obtain ⟨c, hmem, rfl⟩ := List.mem_map.mp hc
    exact SepTree.all_leaf.mpr ⟨(hleaves c hmem).2.2.1, fun _ _ => (hleaves c hmem).2.2.2.1⟩
  · refine Or.inr (SepTree.all_node.mpr ⟨fun h => hne (List.map_eq_nil_iff.mp h), fun c hc => ?_⟩)
    obtain ⟨c, hmem, rfl⟩ := List.mem_map.mp hc
    exact SepTree.all_leaf.mpr (hleaves c hmem).2.2.2.2
  · refine SepTree.all_node.mpr ⟨?_, fun c hc => ?_⟩
    · show ((cs.map _).map _).Pairwise (· < ·)
      rwa [List.map_map]
    · obtain ⟨c, hmem, rfl⟩ := List.mem_map.mp hc
      trivial
  · rw [SepTree.marks_node, List.flatMap_map]
    exact hsorted
  · refine SepTree.all_node.mpr ⟨fun c hc => ?_, fun c hc => ?_⟩
    all_goals obtain ⟨c, hmem, rfl⟩ := List.mem_map.mp hc
    · exact ⟨(hleaves c hmem).1, (hleaves c hmem).2.1⟩
    · trivial
  · intro e he
    obtain ⟨c, hc, he⟩ := List.mem_flatMap.mp he
    obtain ⟨c, hmem, rfl⟩ := List.mem_map.mp hc
    exact hextents c hmem e he

end Leaf

/-- The only leaf of a small disk. -/
theorem admitted_leafBytes {lwext4 : Lwext4} {D : Disk} (e : Ext4Extent)
    (hheader : D.header .root = ⟨ext4ExtentMagic, 1, 4, 0, 0⟩) (hslots : D.slots .root = [e])
    (he : extentInRange (sampleVolume lwext4) e = true) : Admitted (sampleVolume lwext4) D := by
  refine admitted_of_leaf (by rw [hheader]) ?_ ⟨fun x hx => ?_, ?_⟩
  · rw [hheader]
    exact ⟨rfl, by decide, by decide, by decide, Nat.le_refl 4⟩
  · rw [hslots] at hx
    rwa [List.mem_singleton.mp hx]
  · rw [hslots]
    exact List.pairwise_singleton _ _

theorem wellFormed_leafBytes {lwext4 : Lwext4} {D : Disk} (e : Ext4Extent)
    (hheader : D.header .root = ⟨ext4ExtentMagic, 1, 4, 0, 0⟩) (hslots : D.slots .root = [e])
    (he : ExtentOk (sampleVolume lwext4) e) : WellFormed (sampleVolume lwext4) D := by
  refine wellFormed_of_leaf (by rw [hheader]) ?_ ?_ fun x hx => ?_
  · rw [hheader]
    exact ⟨rfl, by decide, by decide, by decide, Nat.le_refl 4⟩
  · rw [hslots]
    simp
  · rw [hslots] at hx
    rwa [List.mem_singleton.mp hx]

/-- The last ten logical blocks are mapped. -/
def endDisk : Disk
  | .root => leafBytes 4 [⟨4294967286, 10, 0, 200⟩]
  | .block _ => fun _ => 0

theorem items_endDisk : endDisk.root.items = [⟨4294967286, 10, 0, 200⟩] :=
  (items_of_leaf (by decide +kernel)).trans (by decide +kernel)

theorem admitted_endDisk : Admitted (sampleVolume fullLwext4) endDisk :=
  admitted_leafBytes ⟨4294967286, 10, 0, 200⟩ (by decide +kernel) (by decide +kernel) (by decide)

theorem items_oneExtentDisk : oneExtentDisk.root.items = [⟨0, 1, 0, 200⟩] :=
  (items_of_leaf (by decide +kernel)).trans (by decide +kernel)

/-- Without checksums a tree is well formed whatever the calls outside answer. -/
theorem wellFormed_sampleVolume {lwext4 lwext4' : Lwext4} {D : Disk}
    (h : WellFormed (sampleVolume lwext4) D) : WellFormed (sampleVolume lwext4') D := by
  refine ⟨h.stands.imp fun u _ hu => ⟨⟨?_, hu.standing.depth, fun _ hcsum => by cases hcsum⟩, ?_⟩,
    h.bushy, h.ordered, h.sorted, h.children.imp fun u _ hu => ?_, fun e he => ?_⟩
  · have hok := hu.standing.headerOk
    exact ⟨hok.magic, hok.depth, hok.pos, hok.count, hok.max⟩
  · exact hu.declares
  · cases u with
    | leaf b es => trivial
    | node b cs => exact hu
  · exact ⟨(h.extents e he).inRange, (h.extents e he).stop_le⟩

/-- The second leaf starts behind its key. -/
def keyGapDisk : Disk
  | .root => indexBytes 4 1 [⟨0, 100, 0, 0⟩, ⟨5, 101, 0, 0⟩]
  | .block 100 => leafBytes 84 [⟨0, 1, 0, 200⟩]
  | .block 101 => leafBytes 84 [⟨100, 1, 0, 201⟩]
  | .block _ => fun _ => 0

theorem wellFormed_keyGapDisk_full : WellFormed (sampleVolume fullLwext4) keyGapDisk := by
  have hroot : keyGapDisk.header .root = ⟨ext4ExtentMagic, 2, 4, 1, 0⟩ := by decide +kernel
  have h100 : keyGapDisk.header (.block 100) = ⟨ext4ExtentMagic, 1, 84, 0, 0⟩ := by decide +kernel
  have h101 : keyGapDisk.header (.block 101) = ⟨ext4ExtentMagic, 1, 84, 0, 0⟩ := by decide +kernel
  have hs100 : keyGapDisk.slots (.block 100) = [⟨0, 1, 0, 200⟩] := by decide +kernel
  have hs101 : keyGapDisk.slots (.block 101) = [⟨100, 1, 0, 201⟩] := by decide +kernel
  have hcap : 84 ≤ capacity (sampleVolume fullLwext4) := by decide
  have hleaf {b : ℕ} (hb : b ≠ 0) (h : keyGapDisk.header (.block b) = ⟨ext4ExtentMagic, 1, 84, 0, 0⟩) :
      Standing (sampleVolume fullLwext4) keyGapDisk 0 b := by
    rw [← Place.of_ne_zero hb] at h
    refine ⟨?_, by rw [h], fun _ hcsum => by cases hcsum⟩
    rw [h, Place.of_ne_zero hb]
    exact ⟨rfl, by decide, by decide, by decide, hcap⟩
  have hstands : Standing (sampleVolume fullLwext4) keyGapDisk 1 0 := by
    rw [← Place.of_zero] at hroot
    refine ⟨?_, by rw [hroot], fun h => absurd rfl h⟩
    rw [hroot, Place.of_zero]
    exact ⟨rfl, by decide, by decide, by decide, Nat.le_refl 4⟩
  have hchildren : (keyGapDisk.slots .root).map (·.child) = [(0, 100), (5, 101)] := by
    decide +kernel
  refine wellFormed_of_leaves hstands hchildren (by decide) (fun c hc => ?_) (by decide) ?_ fun c hc => ?_
  · simp only [List.mem_cons, List.not_mem_nil, or_false] at hc
    rcases hc with rfl | rfl
    · exact ⟨by decide, by decide, hleaf (by decide) h100, (congrArg (·.maxEntriesCount) h100).trans (by decide),
        by rw [Place.of_ne_zero (by decide), hs100]; decide⟩
    · exact ⟨by decide, by decide, hleaf (by decide) h101, (congrArg (·.maxEntriesCount) h101).trans (by decide),
        by rw [Place.of_ne_zero (by decide), hs101]; decide⟩
  · simp only [List.flatMap_cons, List.flatMap_nil]
    rw [Place.of_ne_zero (by decide), Place.of_ne_zero (by decide), hs100, hs101]
    decide
  · simp only [List.mem_cons, List.not_mem_nil, or_false] at hc
    rcases hc with rfl | rfl
    · rw [Place.of_ne_zero (by decide), hs100]
      intro e he
      obtain rfl := List.mem_singleton.mp he
      exact ⟨by decide, by decide⟩
    · rw [Place.of_ne_zero (by decide), hs101]
      intro e he
      obtain rfl := List.mem_singleton.mp he
      exact ⟨by decide, by decide⟩

theorem wellFormed_keyGapDisk {lwext4 : Lwext4} : WellFormed (sampleVolume lwext4) keyGapDisk :=
  wellFormed_sampleVolume wellFormed_keyGapDisk_full

theorem items_keyGapDisk : keyGapDisk.root.items = [⟨0, 1, 0, 200⟩, ⟨100, 1, 0, 201⟩] := by
  have hdepth : keyGapDisk.rootDepth = 1 := by decide +kernel
  have hchildren : (keyGapDisk.slots .root).map (·.child) = [(0, 100), (5, 101)] := by
    decide +kernel
  have h100 : keyGapDisk.slots (.block 100) = [⟨0, 1, 0, 200⟩] := by decide +kernel
  have h101 : keyGapDisk.slots (.block 101) = [⟨100, 1, 0, 201⟩] := by decide +kernel
  unfold Disk.root
  rw [hdepth, Disk.tree_one, hchildren]
  show keyGapDisk.slots (.block 100) ++ (keyGapDisk.slots (.block 101) ++ []) = _
  rw [h100, h101]
  rfl

/-- A lookup of eight blocks at the only one that the second leaf maps. -/
theorem lookup_scans_gap :
    ∃ r s', ext4ExtentGetBlocks (sampleVolume fullLwext4) 100 8 false ⟨keyGapDisk, false, []⟩ =
        .ok r s' ∧ r = (201, 1) ∧ Reads ⟨keyGapDisk, false, []⟩ s' ∧
      LookupAnswers keyGapDisk 100 8 r := by
  obtain ⟨r, s', hrun, hreads, hanswers⟩ := lookup_scans (sampleVolume fullLwext4)
    ⟨keyGapDisk, false, []⟩ 100 8 wellFormed_keyGapDisk.admitted
    (fun e he => (wellFormed_keyGapDisk_full.extents e he).stop_le)
    fun _ _ _ => rfl
  have hanswer : resultOf (ext4ExtentGetBlocks (sampleVolume fullLwext4) 100 8 false
      ⟨keyGapDisk, false, []⟩) = some (201, 1) := by decide +kernel
  rw [hrun] at hanswer
  exact ⟨r, s', hrun, Option.some.inj hanswer, hreads, hanswers⟩

/-- Block 100 is covered by an extent that ends in time. -/
theorem membership_exact_covered :
    (∃ e ∈ keyGapDisk.root.items, Covers e 100) ∧
      MembershipExact (sampleVolume fullLwext4) ⟨keyGapDisk, false, []⟩ 100 := by
  refine ⟨⟨⟨100, 1, 0, 201⟩, by rw [items_keyGapDisk]; simp, by decide⟩, ?_⟩
  refine (membership_exact_iff _ _ _ wellFormed_keyGapDisk.admitted).mpr fun e he hwraps => ?_
  have hstop := (wellFormed_keyGapDisk_full.extents e he).stop_le
  rw [hwraps.1] at hstop
  exact absurd hstop (by decide)

/-- A block of the last extent is reported as a hole, and an insertion there succeeds. -/
theorem membership_at_end :
    Admitted (sampleVolume fullLwext4) endDisk ∧
      endDisk.root.items = [⟨4294967286, 10, 0, 200⟩] ∧
      Covers ⟨4294967286, 10, 0, 200⟩ 4294967290 ∧
      resultOf (ext4ExtentGetBlocks (sampleVolume fullLwext4) 4294967290 1 false
        ⟨endDisk, false, []⟩) = some (0, 0) ∧
      resultOf (insertExtent (sampleVolume fullLwext4) 8 4294967290 ⟨4294967290, 1, 0, 300⟩
        ⟨endDisk, false, []⟩) = some () ∧
      ¬ MembershipExact (sampleVolume fullLwext4) ⟨endDisk, false, []⟩ 4294967290 := by
  refine ⟨admitted_endDisk, items_endDisk, by decide, by decide +kernel, by decide +kernel, ?_⟩
  intro h
  have htest := h.tests ⟨4294967286, 10, 0, 200⟩
    (by rw [show (⟨endDisk, false, []⟩ : St).bytes.root.items = _ from items_endDisk]; simp)
  exact absurd (htest.mpr (by decide)) (by decide)

end EspLwext4
