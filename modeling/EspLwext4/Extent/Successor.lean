import EspLwext4.Extent.Created

/-!
# The extent after a search

On a well-formed tree `find_next_extent` walks the leaf extents in order: from the path of
any search it gives the extent behind the one the path ends at, in the same leaf or at the
left edge of the next, and `ENOENT` behind the last.
-/

namespace EspLwext4

open Prog

variable (inodeRef : InodeRef)

/-- Every call that obtains or releases a block succeeds. -/
def AccessSucceeds : Prop := ∀ (c : IoCall) tr, c.Accesses → inodeRef.lwext4.io c tr = none

/-- `path` ends at the extent number `i` of `es`, and `find_next_extent` in the state `s`
returns the one behind it, or `ENOENT` when it is the last. -/
structure StepsFrom (s : St) (path : ExtentSearchPath) (es : List Ext4Extent) (i : ℕ) : Prop where
  here : ∃ leaf, path.path[path.depth]? = some leaf ∧ leaf.haveExtent = true ∧
    es[i]? = some leaf.extent
  next : wp (findNextExtent inodeRef path)
    (fun x s' => Reads s s' ∧ es[i + 1]? = some x)
    (fun err s' => Reads s s' ∧ err = .enoent ∧ i + 1 = es.length) s

section Lemmas

variable {inodeRef} {s s₁ : St} {d b lblock : ℕ} {t : SepTree Ext4Extent d}
variable {path : ExtentSearchPath} {leaf : ExtentPathNode} {es l r : List Ext4Extent}
variable {x : Ext4Extent} {c : Ctx Ext4Extent 0 d}

theorem AccessSucceeds.not_failed (h : AccessSucceeds inodeRef) {err : Errno} :
    ¬ AccessFailed inodeRef s s₁ err := by
  rintro ⟨c, hc, tr, -, hfail, -⟩
  rw [h c tr hc] at hfail
  cases hfail

theorem AccessSucceeds.reads (h : AccessSucceeds inodeRef) : ReadsSucceed inodeRef :=
  fun _ _ tr => h _ tr trivial

/-- The extents of the tree around the entry a path ends at. -/
theorem Located.items_around (hloc : Located inodeRef s.bytes t lblock path c b (l ++ x :: r) leaf) :
    t.items = (c.itemsLeft ++ l) ++ x :: (r ++ c.itemsRight) := by
  rw [← hloc.plug, Ctx.items_plug, SepTree.items_leaf]
  simp

/-- From the entry `x` of a leaf the next extent is the next entry, or the first extent of the
leaves behind. -/
theorem Located.wp_findNextExtent (hrep : Rep inodeRef .built s.bytes t)
    (ok : TreeOk inodeRef .built t)
    (hloc : Located inodeRef s.bytes t lblock path c b (l ++ x :: r) leaf)
    (hpos : leaf.position = l.length) :
    wp (findNextExtent inodeRef path)
      (fun y s' => Reads s s' ∧ (r ++ c.itemsRight).head? = some y)
      (fun err s' => Reads s s' ∧
        (AccessFailed inodeRef s s' err ∨ err = .enoent ∧ r ++ c.itemsRight = [])) s := by
  have hcount : leaf.header.entriesCount = l.length + 1 + r.length := by
    rw [hloc.leafAt.count]
    simp
    omega
  rcases r with _ | ⟨y, r⟩
  · -- the last entry of the leaf: the climb
    have hlast : ¬ leaf.position + 1 < leaf.header.entriesCount := by
      rw [hpos, hcount]
      simp
    exact wp_mono (wp_findNextExtent_located hrep ok hloc hlast) (fun _ _ h => ⟨h.2, h.1⟩)
      fun _ _ h => h
  · have hmore : leaf.position + 1 < leaf.header.entriesCount := by
      rw [hpos, hcount, List.length_cons]
      omega
    unfold findNextExtent
    rw [wp_bind, wp_node]
    refine ⟨leaf, hloc.leafNode, (wp_ite _ _ _).mpr ⟨fun _ => ?_, fun h => absurd hmore h⟩⟩
    have hsplit : l ++ x :: y :: r = (l ++ [x]) ++ y :: r := by simp
    refine wp_mono (hloc.wp_nodeGetExtent hrep hsplit (by simp [hpos])) ?_
      fun _ _ h => ⟨h.1, Or.inl h.2⟩
    rintro z s' ⟨rfl, hreads⟩
    exact ⟨hreads, rfl⟩

/-- A leaf that a search ends in holds an entry, unless the tree is empty. -/
theorem Located.entry_of_items (hrep : Rep inodeRef .built s.bytes t)
    (ok : TreeOk inodeRef .built t)
    (hloc : Located inodeRef s.bytes t lblock path c b es leaf) (hne : t.items ≠ []) :
    ∃ l x r, es = l ++ x :: r ∧ leaf.position = l.length ∧ leaf.extent = x ∧
      leaf.haveExtent = true := by
  have hcursor := hloc.leafAt.cursor
  generalize hes : es = es' at hcursor
  cases hcursor with
  | entry l x r hpos hextent hhave => exact ⟨l, x, r, rfl, hpos, hextent, hhave⟩
  | empty =>
      subst hes
      have hb : b = 0 := by
        by_contra hb
        exact (leafReady_built hrep ok lblock c b [] hloc.plug hloc.chosen hb).1 rfl
      have hlen : c.length = 0 := hloc.depth.symm.trans ((hloc.addr_eq_zero_iff ok).mp hb)
      refine absurd ?_ hne
      rw [← hloc.plug]
      cases c with
      | nil => rfl
      | cons f c => exact absurd hlen (Nat.succ_ne_zero _)

end Lemmas

/-- **`find_next_extent` gives the next extent of the file.** On a well-formed tree with at
least one extent, with blocks that can be obtained and released, and from every path that
`find_extent` returned for any block. -/
theorem next_extent_in_order (inodeRef : InodeRef) (s s₁ s₂ : St) (lblock : UInt32)
    (path : ExtentSearchPath) (haccess : AccessSucceeds inodeRef) (h : WellFormed inodeRef s.bytes)
    (hne : s.bytes.root.items ≠ []) (hfind : findExtent inodeRef lblock.toNat s = .ok path s₁)
    (hsame : s₂.bytes = s.bytes) :
    ∃ i, StepsFrom inodeRef s₂ path s.bytes.root.items i := by
  obtain ⟨-, c, b, es, leaf, hloc⟩ := wp_ok (wp_findExtent_located h.rep h.treeOk) hfind
  obtain ⟨l, x, r, rfl, hpos, hextent, hhave⟩ := hloc.entry_of_items h.rep h.treeOk hne
  have hitems := hloc.items_around
  refine ⟨(c.itemsLeft ++ l).length, ⟨leaf, hloc.leafNode, hhave, ?_⟩, ?_⟩
  · rw [hitems, hextent]
    simp
  have hnext : s.bytes.root.items[(c.itemsLeft ++ l).length + 1]? = (r ++ c.itemsRight).head? := by
    rw [hitems, List.getElem?_append_right (Nat.le_succ _), List.head?_eq_getElem?]
    simp
  obtain ⟨D, dirty, trace⟩ := s₂
  obtain rfl : D = s.bytes := hsame
  refine wp_mono (Located.wp_findNextExtent h.rep h.treeOk hloc hpos) ?_ ?_
  · rintro y s' ⟨hreads, hy⟩
    exact ⟨hreads, hnext.trans hy⟩
  · rintro err s' ⟨hreads, hfailed | ⟨herr, hlast⟩⟩
    · exact absurd hfailed haccess.not_failed
    · refine ⟨hreads, herr, ?_⟩
      rw [hitems, hlast]
      rw [List.length_append, List.length_append, List.length_append, List.length_singleton]

/-- From a search for block 0 of a file with extents at 0 and 100 in two leaves. -/
theorem next_extent_in_order_across :
    ∃ path s₁, findExtent (sampleVolume risingLwext4) 0 ⟨keyGapDisk, false, []⟩ = .ok path s₁ ∧
      ∃ i, StepsFrom (sampleVolume risingLwext4) s₁ path keyGapDisk.root.items i := by
  have h : WellFormed (sampleVolume risingLwext4) keyGapDisk := wellFormed_keyGapDisk
  have haccess : AccessSucceeds (sampleVolume risingLwext4) := fun _ _ _ => rfl
  have hfind : wp (findExtent (sampleVolume risingLwext4) 0) (fun _ s₁ => s₁.bytes = keyGapDisk)
      (fun _ _ => False) ⟨keyGapDisk, false, []⟩ := by
    refine wp_mono (wp_findExtent_located h.rep h.treeOk) (fun _ _ h => h.1.bytes) fun _ _ h => ?_
    exact absurd h.2 haccess.reads.not_failed
  obtain ⟨path, s₁, hrun, hbytes⟩ := wp_returns hfind
  refine ⟨path, s₁, hrun, next_extent_in_order (sampleVolume risingLwext4) ⟨keyGapDisk, false, []⟩
    s₁ s₁ 0 path haccess h ?_ hrun hbytes⟩
  rw [items_keyGapDisk]
  exact List.cons_ne_nil _ _

end EspLwext4
