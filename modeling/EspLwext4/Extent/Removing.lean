import EspLwext4.Extent.Inserting
import EspLwext4.Extent.Pruning

/-!
# Removing from a tree

`remove_leaf` cuts blocks out of the extent a search ended at and rewrites its leaf, or takes
the emptied leaf out of the tree; `remove_middle_of_extent` makes room first and leaves two
extents. Both keep a good tree good, give back the blocks they cut out and the nodes that
went, and no other.
-/

namespace EspLwext4

open Prog Bytes Ranged

variable (inodeRef : InodeRef)

/-- All blocks a tree refers to: the external nodes and the data blocks. -/
def refs {d : ℕ} (t : SepTree Ext4Extent d) : Multiset ℕ := t.below + dataBlocks t.items

/-- The blocks from `a` on and before `z`, part of one extent, were cut out of the tree `t`:
the tree is `t'`, and what it does not refer to any more was given back. -/
structure CutOut (s s' : St) {d d' : ℕ} (t : SepTree Ext4Extent d) (a z : ℕ)
    (t' : SepTree Ext4Extent d') : Prop where
  rep : Rep inodeRef .built s'.bytes t'
  ok : TreeOk inodeRef .built t'
  items : Replaced (CutTo inodeRef a z) t.items t'.items
  settled : Settled (refs t) s s' (refs t')
  exact : t.Exact → t'.Exact

/-- The leaf in the hole of `c` has the entries `es` now and stands, or it went with the nodes
above it that this left empty: the tree `t` is `t'`. -/
structure Refitted (s s' : St) {d d' : ℕ} (t : SepTree Ext4Extent d) (c : Ctx Ext4Extent 0 d)
    (es : List Ext4Extent) (t' : SepTree Ext4Extent d') : Prop where
  rep : Rep inodeRef .built s'.bytes t'
  ok : TreeOk inodeRef .built t'
  items : t'.items = c.itemsLeft ++ es ++ c.itemsRight
  given : ∃ gone, t.below = gone + t'.below ∧ ∀ base, Settled (gone + base) s s' base
  exact : t.Exact → t'.Exact

section Lemmas

variable {inodeRef} {s s₁ s₂ s' : St} {d d' b a z first last lblock pblock count : ℕ}
variable {t : SepTree Ext4Extent d} {t' : SepTree Ext4Extent d'} {c : Ctx Ext4Extent 0 d}
variable {es l r ys : List Ext4Extent} {x : Ext4Extent} {path : ExtentSearchPath}
variable {leaf : ExtentPathNode} {err : Errno}

/-! ## The blocks cut out -/

theorem dataBlocks_cut (h : CutTo inodeRef a z x ys) (hcnt : inodeRef.blocksCnt ≤ pblockLimit) :
    dataBlocks (l ++ x :: r) = x.runBetween a z + dataBlocks (l ++ ys ++ r) := by
  have hys : dataBlocks ys = (ys.map Ext4Extent.run).sum := rfl
  rw [dataBlocks_append, dataBlocks_cons, h.run_eq hcnt, dataBlocks_append, dataBlocks_append, hys,
    add_assoc, add_left_comm, add_assoc]

/-- The cut in the tree, once the run is given back before or behind. -/
theorem Refitted.cutOut (h : Refitted inodeRef s₁ s₂ t c (l ++ ys ++ r) t')
    (hcut : CutTo inodeRef a z x ys) (hcnt : inodeRef.blocksCnt ≤ pblockLimit)
    (hplug : c.plug (.leaf b (l ++ x :: r)) = t) (hbytes : s'.bytes = s₂.bytes)
    (hrun : x.runBetween a z = blockRun pblock count)
    (hsettled : ∀ gone base, (∀ base, Settled (gone + base) s₁ s₂ base) →
      Settled (blockRun pblock count + (gone + base)) s s' base) :
    CutOut inodeRef s s' t a z t' := by
  obtain ⟨hrep, ok, hitems, ⟨gone, hbelow, hgiven⟩, hexact⟩ := h
  have ht : t.items = c.itemsLeft ++ (l ++ x :: r) ++ c.itemsRight := by
    rw [← hplug, Ctx.items_plug]
    rfl
  refine ⟨hbytes ▸ hrep, ok, ?_, ?_, hexact⟩
  · rw [ht, hitems]
    exact Replaced.within ⟨l, x, r, ys, rfl, rfl, hcut⟩
  · have hdata : dataBlocks t.items = blockRun pblock count + dataBlocks t'.items := by
      have h₁ : t.items = (c.itemsLeft ++ l) ++ x :: (r ++ c.itemsRight) := by rw [ht]; simp
      have h₂ : t'.items = (c.itemsLeft ++ l) ++ ys ++ (r ++ c.itemsRight) := by rw [hitems]; simp
      rw [h₁, h₂, dataBlocks_cut hcut hcnt, hrun]
    have hrefs : refs t = blockRun pblock count + (gone + refs t') := by
      unfold refs
      rw [hbelow, hdata, add_left_comm, add_assoc]
    rw [hrefs]
    exact hsettled _ _ hgiven

/-! ## The leaf -/

/-- `remove_leaf` frees one run. -/
theorem wp_rewriteLeaf_trace (hw : WritesSucceed inodeRef)
    (hleaf : LeafOk inodeRef s.bytes lblock b leaf) (h0 : 0 < leaf.header.entriesCount)
    (htrim : Trims leaf.extent first last) :
    wp (rewriteLeaf inodeRef leaf first last)
      (fun _ s' => s'.trace = .io (.ballocFreeBlocks (leaf.extent.cutRun first last).1
        (leaf.extent.cutRun first last).2) none :: s.trace) (fun _ _ => False) s := by
  have hsane := hleaf.sane
  have hfits := hsane.fits hsane.headerOk.count
  have hlt := (hleaf.chosen h0).lt
  -- behind the loop nothing is called
  have rest (write i count : ℕ) (s' : St) (hle : write ≤ i) (hi : i ≤ leaf.header.entriesCount) :
      wp (do
        whenever (write ≠ i ∧ i < leaf.header.entriesCount) do
          moveEntries inodeRef leaf.place write i (leaf.header.entriesCount - i)
        storeHeader inodeRef leaf.place { leaf.header with entriesCount := u16 count }
        if 0 < count then do
          let firstAfter ← loadKey inodeRef leaf.place 0
          return (count, firstAfter)
        else return (count, 0)) (fun _ s'' => s''.trace = s'.trace) (fun _ _ => False) s' := by
    have counted (s₁ : St) (hs₁ : s₁.trace = s'.trace) :
        wp (storeHeader inodeRef leaf.place { leaf.header with entriesCount := u16 count } >>= fun _ =>
          if 0 < count then loadKey inodeRef leaf.place 0 >>= fun firstAfter =>
            pure (count, firstAfter) else pure (count, 0)) (fun _ s'' => s''.trace = s'.trace)
          (fun _ _ => False) s₁ := by
      rw [wp_bind, wp_storeHeader, wp_ite]
      refine ⟨fun _ => ?_, fun _ => hs₁⟩
      rw [wp_bind, wp_loadKey (hfits.mono (by omega))]
      exact hs₁
    rw [wp_bind, wp_whenever]
    refine ⟨fun _ => ?_, fun _ => counted s' rfl⟩
    rw [wp_moveEntries]
    exact ⟨hfits.mono (by omega), hfits.mono (by omega), counted _ rfl⟩
  unfold rewriteLeaf
  dsimp only
  rw [wp_bind]
  refine wp_removeLeafLoop_one hleaf h0 htrim ?_
  rw [wp_onError]
  refine wp_ballocFreeBlocks_ok (fun hn => absurd hw hn) ⟨rfl, ?_⟩
  cases leaf.extent.trimmed first last with
  | none => exact rest leaf.position (leaf.position + 1) _ _ (Nat.le_succ _) hlt
  | some kept => exact rest (leaf.position + 1) (leaf.position + 1) _ _ (Nat.le_refl _) hlt

/-- `remove_leaf` rewrites the entry at the cursor. -/
theorem wp_rewriteLeaf_cut (hw : WritesSucceed inodeRef)
    (hleaf : LeafOk inodeRef s.bytes lblock b leaf) (hheld : Held inodeRef s leaf)
    (hs : s.bytes.slots leaf.place = l ++ x :: r) (hpos : leaf.position = l.length)
    (hx : leaf.extent = x) (hapart : Apart (l ++ x :: r)) (htrim : Trims x first last) :
    wp (rewriteLeaf inodeRef leaf first last)
      (fun res s' => Relists s s' leaf.place (l ++ (x.trimmed first last).toList ++ r) ∧
        res = ((l ++ (x.trimmed first last).toList ++ r).length,
          firstKey (l ++ (x.trimmed first last).toList ++ r)) ∧
        s'.trace = .io (.ballocFreeBlocks (x.cutRun first last).1 (x.cutRun first last).2) none ::
          s.trace)
      (fun _ _ => False) s := by
  have hcount := hheld.count hs
  have h0 : 0 < leaf.header.entriesCount := by rw [hcount]; simp
  have hkept : (l ++ x :: r).take leaf.position ++
      keptEntries first last ((l ++ x :: r).drop leaf.position) =
        l ++ (x.trimmed first last).toList ++ r := by
    have hreach := htrim.reach
    have hlen := htrim.pos
    rw [hpos, List.take_left, List.drop_left, keptEntries_one htrim.lower, trimExtent_eq htrim,
      List.append_assoc]
    · rw [sub32_u32_one (by omega) htrim.range]
      omega
    · intro y hy
      have hcross := (List.pairwise_cons.mp (List.pairwise_append.mp hapart).2.1).1 y
        (List.mem_of_head? hy)
      have hupper := htrim.upper
      rw [stop_extent, first_extent] at hcross
      omega
  have htrace := wp_rewriteLeaf_trace hw hleaf h0 (hx ▸ htrim)
  rw [hx] at htrace
  have hle : leaf.position ≤ (l ++ x :: r).length := by
    rw [hpos, List.length_append]
    omega
  refine wp_mono (wp_and (wp_rewriteLeaf_relists hheld hs hle) htrace) ?_ fun _ _ h => h.2
  rintro res s' ⟨⟨hrel, hres⟩, htrace⟩
  rw [hkept] at hrel hres
  exact ⟨hrel, hres, htrace⟩

section Leaf

variable (hcnt : inodeRef.blocksCnt ≤ pblockLimit) (hrep : Rep inodeRef .built s.bytes t)
  (ok : TreeOk inodeRef .built t) (hloc : Located inodeRef s.bytes t lblock path c b es leaf)

include hcnt hrep ok hloc

/-- The leaf is rewritten, not empty: the keys above it may be renamed. -/
theorem refitted_of_rewrote {h : Ext4ExtentHeader} {front : Bool} {v : ℕ}
    {c' : Ctx Ext4Extent 0 d} (hcut : LeafCut inodeRef a z es ys front v)
    (hr : Rewrote inodeRef s s₁ b h ys) (hh : LeafHeader inodeRef .built b h)
    (hc' : c' = c.rekeyIf front v) (ht : Touches c.addrs s₁ s')
    (haround : c'.Around (RepAt inodeRef .built s'.bytes) (.leaf b ys)) :
    Refitted inodeRef s s' t c ys (c'.plug (.leaf b ys)) := by
  subst hc'
  obtain ⟨hself, -⟩ := hloc.rep_rewritten hrep ok.nodup hr hh
  have hout := (hloc.not_outside ok.nodup).2
  refine ⟨(Ctx.all_plug _ _).mpr ⟨hself.congr (ht.others b hout), haround⟩,
    hcut.treeOk hcnt ok hloc.plug, ?_, ⟨0, ?_, fun base => ?_⟩, hcut.exact hloc.plug⟩
  · rw [Ctx.items_plug, Ctx.itemsLeft_rekeyIf, Ctx.itemsRight_rekeyIf]
    rfl
  · refine below_of_addrs ?_ ?_
    · rw [(hcut.treeOk hcnt ok hloc.plug).addr, ok.addr]
    · rw [zero_add, addrs_cut hloc.plug]
  · rw [zero_add]
    exact .of_quiet base (hr.quiet.trans ht.quiet)

omit hcnt in
/-- The leaf is empty: it goes, unless it is the root. -/
theorem wp_dropLeaf {h : Ext4ExtentHeader} (hw : WritesSucceed inodeRef)
    (hr : Rewrote inodeRef s s₁ b h []) (hh : LeafHeader inodeRef .built b h) :
    wp (if b = 0 then pure () else removeIndex inodeRef path (path.depth - 1))
      (fun _ s' => ∃ (d' : ℕ) (t' : SepTree Ext4Extent d'), Refitted inodeRef s s' t c [] t')
      (fun err s' => Stranded inodeRef s s' err) s₁ := by
  obtain ⟨hself, haround⟩ := hloc.rep_rewritten hrep ok.nodup hr hh
  have hzero := hloc.addr_eq_zero_iff ok
  rw [hloc.depth] at hzero ⊢
  have hroot : c.rootAddr b = 0 := by
    have haddr := ok.addr
    rwa [← hloc.plug, Ctx.addr_plug] at haddr
  have done (s' : St) (h' : Rep inodeRef .built s'.bytes (c.prune b).2)
      (hgiven : ∀ base, Settled (c.pruned b + base) s₁ s' base) :
      Refitted inodeRef s s' t c [] (c.prune b).2 := by
    refine ⟨h', ok.prune hloc.plug, ?_, ⟨c.pruned b, ?_, fun base => ?_⟩, fun hex => ?_⟩
    · rw [Ctx.items_prune, List.append_nil]
    · have haddr : (c.prune b).2.addr = t.addr := by rw [Ctx.addr_prune, hroot, ok.addr]
      refine below_of_addrs haddr.symm ?_
      rw [add_comm, ← Ctx.addrs_prune, ← hloc.plug, Ctx.addrs_plug, SepTree.addrs_leaf, add_comm,
        Multiset.singleton_add]
    · exact (Settled.of_quiet _ hr.quiet).trans (hgiven base)
    · exact Ctx.exact_prune ((Ctx.all_plug c _).mp (hloc.plug ▸ hex)).2
  rw [wp_ite]
  constructor
  · intro h0
    obtain ⟨hprune, hpruned⟩ := Ctx.prune_of_length (b := b) (hzero.mp h0)
    refine ⟨_, _, done s₁ ?_ fun base => ?_⟩
    · rw [hprune]
      exact hself
    · rw [hpruned, zero_add]
      exact .of_quiet base (.refl s₁)
  · intro h0
    have hlen : c.length = c.length - 1 + 1 := by
      have := mt hzero.mpr h0
      omega
    have hcb := hloc.not_outside ok.nodup
    refine wp_mono (wp_removeIndex hw c (.leaf b []) s₁ _ hlen haround hcb.1 hroot ?_) ?_ ?_
    · exact hloc.along.congr fun a ha => hr.bytes_eq fun h => hcb.2 (h ▸ ha)
    · rintro _ s' ⟨h', hgiven⟩
      exact ⟨_, _, done s' h' hgiven⟩
    · exact fun err s' hfail => hfail.earlier hr.quiet.suffix

/-- What `remove_leaf` does behind the rewrite of the leaf. -/
theorem wp_refit {h : Ext4ExtentHeader} (hw : WritesSucceed inodeRef)
    (hes : es = l ++ x :: r) (hpos : leaf.position = l.length) (hcut : CutTo inodeRef a z x ys)
    (hr : Rewrote inodeRef s s₁ b h (l ++ ys ++ r)) (hh : LeafHeader inodeRef .built b h) :
    wp (do
      whenever (leaf.position = 0 ∧ 0 < (l ++ ys ++ r).length) do
        correctIndexes inodeRef path (firstKey (l ++ ys ++ r)) path.depth
      if (l ++ ys ++ r).length = 0 then
        if leaf.pblockOfNode = 0 then pure () else removeIndex inodeRef path (path.depth - 1)
      else pure ())
      (fun _ s' => ∃ (d' : ℕ) (t' : SepTree Ext4Extent d'),
        Refitted inodeRef s s' t c (l ++ ys ++ r) t')
      (fun err s' => Stranded inodeRef s s' err) s₁ := by
  have hreplaced : Replaced (CutTo inodeRef a z) es (l ++ ys ++ r) := ⟨l, x, r, ys, hes, rfl, hcut⟩
  rw [hloc.leafAt.pblockOfNode, wp_bind, wp_whenever]
  by_cases hnil : l ++ ys ++ r = []
  · rw [hnil] at hr ⊢
    refine ⟨fun h => absurd h.2 (Nat.lt_irrefl 0), fun _ => ?_⟩
    exact wp_dropLeaf hrep ok hloc hw hr hh
  obtain ⟨w, ws, hws⟩ := List.exists_cons_of_ne_nil hnil
  have hhead : (l ++ ys ++ r).head?.map first = some (firstKey (l ++ ys ++ r)) := by
    rw [hws]
    rfl
  have hne : (l ++ ys ++ r).length ≠ 0 := by rw [hws]; exact Nat.succ_ne_zero _
  obtain ⟨-, haround⟩ := hloc.rep_rewritten hrep ok.nodup hr hh
  constructor
  · rintro ⟨h0, -⟩
    have hlt : firstKey (l ++ ys ++ r) < 4294967296 := by
      have hw : w.Fits := by
        refine s₁.bytes.slots_fits (p := Place.of b) w ?_
        rw [hr.slots, hws]
        simp
      rw [hws]
      exact hw.firstBlock
    have hcb := hloc.not_outside ok.nodup
    rw [hloc.depth]
    refine wp_mono (wp_correctIndexes hlt c _ s₁ haround hcb.1 ?_) ?_ ?_
    · exact hloc.along.congr fun a ha => hr.bytes_eq fun h => hcb.2 (h ▸ ha)
    · rintro _ s' ⟨ht, h'⟩
      rw [if_neg hne]
      have hleaf : LeafCut inodeRef a z es (l ++ ys ++ r) true (firstKey (l ++ ys ++ r)) :=
        ⟨hreplaced, hhead, fun h => by cases h⟩
      exact ⟨_, _, refitted_of_rewrote hcnt hrep ok hloc hleaf hr hh rfl ht h'⟩
    · intro err s' h
      obtain ⟨-, hfail, -⟩ := h hw
      exact Or.inl (hfail.earlier hr.quiet.suffix)
  · intro hno
    rw [if_neg hne]
    have hl : l ≠ [] := by
      rintro rfl
      exact hno ⟨hpos, Nat.pos_of_ne_zero hne⟩
    obtain ⟨y, l', rfl⟩ := List.exists_cons_of_ne_nil hl
    have hleaf : LeafCut inodeRef a z es (y :: l' ++ ys ++ r) false (firstKey (y :: l' ++ ys ++ r)) :=
      ⟨hreplaced, hhead, fun _ => by rw [hes]; rfl⟩
    exact ⟨_, _, refitted_of_rewrote hcnt hrep ok hloc hleaf hr hh rfl (.refl _ _) haround⟩

end Leaf

/-- `remove_leaf` on the entry a search ended at. -/
theorem wp_removeLeaf (hw : WritesSucceed inodeRef) (hcnt : inodeRef.blocksCnt ≤ pblockLimit)
    (hrep : Rep inodeRef .built s.bytes t) (ok : TreeOk inodeRef .built t)
    (hloc : Located inodeRef s.bytes t lblock path c b (l ++ x :: r) leaf)
    (hpos : leaf.position = l.length) (hx : leaf.extent = x) (htrim : Trims x first last) :
    wp (removeLeaf inodeRef path first last)
      (fun _ s' => ∃ (d' : ℕ) (t' : SepTree Ext4Extent d'),
        CutOut inodeRef s s' t (max x.firstBlock first) (last + 1) t')
      (fun err s' => Reads s s' ∧ ReadFailed inodeRef s s' .removeLeaf err ∨
        Stranded inodeRef s s' err) s := by
  have hblock := hloc.leafAt.pblockOfNode
  have hleaf := hloc.leafRep hrep
  have hslots : s.bytes.slots (Place.of b) = l ++ x :: r := hleaf.entries
  have hrange : extentInRange inodeRef x = true := ok.inRange x (hloc.mem_items (by simp))
  have hcut := htrim.cutTo hrange
  obtain ⟨ns, hpath⟩ := hloc.pathOk
  have hleafOk := hpath.leafOk
  rw [hblock] at hleafOk
  have hplace : leaf.place = Place.of b := by
    unfold ExtentPathNode.place
    rw [hblock]
  unfold removeLeaf
  rw [wp_bind, wp_node]
  refine ⟨leaf, hloc.leafNode, ?_⟩
  rw [wp_bind]
  refine wp_getForWrite .removeLeaf (fun s₁ h₁ => ?_) fun err s₁ h₁ h₂ => Or.inl ⟨h₁, h₂⟩
  have hheld : Held inodeRef s₁ leaf := hleaf.held ⟨hblock, hloc.leafAt.header⟩ h₁.bytes
  rw [wp_bind]
  refine wp_mono (wp_rewriteLeaf_cut hw (by rw [h₁.bytes]; exact hleafOk) hheld
    (by rw [h₁.bytes, hplace, hslots]) hpos hx (hloc.apart ok) htrim) ?_ fun _ _ h => h.elim
  rintro _ s₂ ⟨hrel, rfl, htrace⟩
  dsimp only
  -- the state once the run is given back
  generalize hs₀ : s₁.log (.io (.ballocFreeBlocks (x.cutRun first last).1 (x.cutRun first last).2)
    none) = s₀
  have hbytes : s₀.bytes = s.bytes := by rw [← hs₀]; exact h₁.bytes
  have hquiet : Quiet s₀ s₂ := ⟨[], by rw [htrace, ← hs₀]; rfl, by simp⟩
  have hlen : (l ++ (x.trimmed first last).toList ++ r).length ≤ leaf.header.maxEntriesCount := by
    have hcount := hheld.count (by rw [h₁.bytes, hplace, hslots])
    have hle := hheld.ok.count
    have hone : (x.trimmed first last).toList.length ≤ 1 := by
      cases x.trimmed first last <;> simp
    simp only [List.length_append, List.length_cons] at hcount ⊢
    omega
  rw [← hbytes] at hloc hrep hleaf
  have hheader := hleaf.leafHeader.withCount (hloc.leafAt.header ▸ hlen)
  rw [wp_bind]
  refine wp_mono (hheld.wp_finish_rewrote hw hblock (h₁.bytes.trans hbytes.symm) hquiet hlen hrel)
    ?_ fun _ _ h => h.elim
  intro _ s₃ hr
  have hgive (base : Multiset ℕ) : Settled (blockRun (x.cutRun first last).1
      (x.cutRun first last).2 + base) s s₀ base := by
    rw [← hs₀]
    exact (Settled.of_quiet _ h₁.quiet).trans (.give base s₁)
  refine wp_mono (wp_refit hcnt hrep ok hloc hw rfl hpos hcut hr hheader) ?_ ?_
  · rintro _ s' ⟨d', t', hfit⟩
    refine ⟨d', t', hfit.cutOut hcut hcnt hloc.plug rfl rfl fun gone base hgiven => ?_⟩
    exact (hgive _).trans (hgiven base)
  · exact fun err s' h => Or.inr (h.earlier (hgive 0).suffix)

/-! ## The middle of an extent -/

/-- A search for a block that an extent covers ends at that extent. -/
theorem Located.finds (hloc : Located inodeRef s.bytes t lblock path c b es leaf)
    (hrep : Rep inodeRef .built s.bytes t) (ok : TreeOk inodeRef .built t) (hx : x ∈ t.items)
    (hcov : Covers x lblock) :
    ∃ l r, es = l ++ x :: r ∧ leaf.position = l.length ∧ leaf.extent = x := by
  have hsorted : t.Sorted := hrep.sorted (ok.acceptable_all hrep)
  have hfound := hloc.seek_eq hsorted
  rw [SepTree.seek_covers (SepTree.bounded_of_sorted ok.sorted) hsorted hx hcov.1 hcov.2] at hfound
  unfold ExtentPathNode.found at hfound
  cases hloc.leafAt.cursor with
  | empty _ hhave =>
      rw [hhave] at hfound
      cases hfound
  | entry l y r hpos hextent hhave _ _ =>
      rw [if_pos hhave, hextent] at hfound
      obtain rfl := Option.some.inj hfound
      exact ⟨l, r, rfl, hpos, hextent⟩

theorem first_splitAround (x : Ext4Extent) (first last : ℕ) :
    Ranged.first (splitAround x first last).1 = Ranged.first x := x.withLen_firstBlock _

/-- The leaf of an extent gets its two ends in its place. -/
theorem wp_splitEntry (hw : WritesSucceed inodeRef) (hcnt : inodeRef.blocksCnt ≤ pblockLimit)
    (hrep : Rep inodeRef .built s.bytes t) (ok : TreeOk inodeRef .built t)
    (hloc : Located inodeRef s.bytes t lblock path c b (l ++ x :: r) leaf)
    (hpos : leaf.position = l.length) (hlt : x.firstBlock < first) (hle : first ≤ last)
    (hlast : last + 1 < stop x)
    (hroom : leaf.header.entriesCount < leaf.header.maxEntriesCount) :
    wp (do
      getForWrite inodeRef .removeMiddleOfExtent leaf
      replaceByTwo inodeRef leaf (splitAround x first last).1 (splitAround x first last).2
      finishNode inodeRef leaf
      removeBlocks inodeRef x first last)
      (fun _ s' => ∃ t' : SepTree Ext4Extent d, CutOut inodeRef s s' t first (last + 1) t')
      (fun err s' => Reads s s' ∧ ReadFailed inodeRef s s' .removeMiddleOfExtent err) s := by
  have hblock := hloc.leafAt.pblockOfNode
  have hleaf := hloc.leafRep hrep
  have hslots : s.bytes.slots (Place.of b) = l ++ x :: r := hleaf.entries
  have hx : x ∈ t.items := hloc.mem_items (by simp)
  have hrange : extentInRange inodeRef x = true := ok.inRange x hx
  have hfits : x.Fits := hrep.items_fits x hx
  have hplace : leaf.place = Place.of b := by
    unfold ExtentPathNode.place
    rw [hblock]
  generalize hys : [(splitAround x first last).1, (splitAround x first last).2] = ys
  have hparts := splitAround_eq hfits hrange hlt hle hlast
  have hcut : CutTo inodeRef first (last + 1) x ys :=
    ⟨hfits, hrange, Nat.le_of_lt hlt, Nat.lt_succ_of_le hle, Nat.le_of_lt hlast, hys ▸ hparts⟩
  have hends := hcut.fits_parts
  subst hys
  obtain ⟨-, hstop, -, -⟩ := extentInRange_iff.mp hrange
  rw [wp_bind]
  refine wp_getForWrite .removeMiddleOfExtent (fun s₁ h₁ => ?_) fun err s₁ h₁ h₂ => ⟨h₁, h₂⟩
  have hheld : Held inodeRef s₁ leaf := hleaf.held ⟨hblock, hloc.leafAt.header⟩ h₁.bytes
  have hslots₁ : s₁.bytes.slots leaf.place = l ++ x :: r := by rw [h₁.bytes, hplace, hslots]
  rw [wp_bind]
  refine wp_mono (wp_replaceByTwo_relists hheld hslots₁ (hends _ (by simp)) (hends _ (by simp)) hpos
    hroom) ?_ fun _ _ h => h.elim
  rintro _ s₂ ⟨hrel, htrace⟩
  have hquiet : Quiet s s₂ := h₁.quiet.trans ⟨[], htrace, by simp⟩
  have hcount := hheld.count hslots₁
  have hlen : (l ++ [(splitAround x first last).1, (splitAround x first last).2] ++ r).length ≤
      leaf.header.maxEntriesCount := by
    simp only [List.length_append, List.length_cons, List.length_nil] at hcount ⊢
    omega
  have hheader := hleaf.leafHeader.withCount (hloc.leafAt.header ▸ hlen)
  have hrel' : Relists s₁ s₂ leaf.place
      (l ++ [(splitAround x first last).1, (splitAround x first last).2] ++ r) := by
    rw [List.append_assoc]
    exact hrel
  rw [wp_bind]
  refine wp_mono (hheld.wp_finish_rewrote hw hblock h₁.bytes hquiet hlen hrel') ?_
    fun _ _ h => h.elim
  intro _ s₃ hr
  have hfree : removeBlocks inodeRef x first last = _ :=
    removeBlocks_eq (Nat.le_of_lt hlt) hle (by rw [stop_extent] at hlast; omega)
      (by rw [stop_extent] at hlast; omega)
  rw [hfree]
  refine wp_ballocFreeBlocks_ok (fun hn => absurd hw hn) ?_
  have haround := (hloc.rep_rewritten hrep ok.nodup hr hheader).2
  have hfront : LeafCut inodeRef first (last + 1) (l ++ x :: r)
      (l ++ [(splitAround x first last).1, (splitAround x first last).2] ++ r) false
      (firstKey (l ++ [(splitAround x first last).1, (splitAround x first last).2] ++ r)) := by
    refine ⟨⟨l, x, r, _, rfl, rfl, hcut⟩, ?_, fun _ => ?_⟩
    · cases l <;> rfl
    · cases l with
      | nil => exact congrArg some (first_splitAround x first last).symm
      | cons y l => rfl
  have hfit := refitted_of_rewrote hcnt hrep ok hloc hfront hr hheader rfl (.refl _ _) haround
  refine ⟨_, hfit.cutOut hcut hcnt hloc.plug rfl rfl fun gone base hgiven => ?_⟩
  rw [add_left_comm]
  exact (hgiven _).trans (.give base s₃)

/-- The tree had another shape before the cut. -/
theorem CutOut.after {base own : Multiset ℕ} {e : ℕ} {t₁ : SepTree Ext4Extent e}
    (hbase : base = refs t) (ok : TreeOk inodeRef .built t)
    (hre : Reshaped inodeRef .built base s s₁ t own t₁) (h : CutOut inodeRef s₁ s' t₁ a z t') :
    CutOut inodeRef s s' t a z t' := by
  have hbelow : t₁.below = own + t.below :=
    below_of_addrs (hre.holding.ok.addr.trans ok.addr.symm) hre.addrs
  have hrefs : refs t₁ = own + base := by
    unfold refs at hbase ⊢
    rw [hbelow, hre.content.items, hbase, add_assoc]
  refine ⟨h.rep, h.ok, hre.content.items ▸ h.items, ?_, fun hex => h.exact (hre.content.exact hex)⟩
  rw [← hbase]
  exact hre.spent.settled.trans (hrefs ▸ h.settled)

/-- `remove_middle_of_extent` on an extent that reaches out on both sides of the range. -/
theorem wp_removeMiddleOfExtent (hw : WritesSucceed inodeRef)
    (hcnt : inodeRef.blocksCnt ≤ pblockLimit)
    (hold : Holding inodeRef .built (refs t) s t) (hx : x ∈ t.items) (hlt : x.firstBlock < first)
    (hle : first ≤ last) (hlast : last + 1 < stop x) :
    wp (removeMiddleOfExtent inodeRef first last)
      (fun _ s' => ∃ (d' : ℕ) (t' : SepTree Ext4Extent d'),
        CutOut inodeRef s s' t first (last + 1) t')
      (fun err s' => RoomFailed inodeRef .built (refs t) s s' t err) s := by
  unfold removeMiddleOfExtent
  rw [wp_bind]
  refine wp_mono (wp_ensureInsertRoom hcnt hold) ?_ fun _ _ h => h hw
  rintro path s₁ ⟨d', own, t₁, c, b, es, leaf, hroom⟩
  have hre := hroom.toReshaped
  have hloc := hroom.toLocated
  have hrep := hre.holding.rep
  have ok := hre.holding.ok
  have hmem : x ∈ t₁.items := by rwa [hre.content.items]
  obtain ⟨l, r, rfl, hpos, rfl⟩ :=
    hloc.finds hrep ok hmem ⟨Nat.le_of_lt hlt, Nat.lt_trans (Nat.lt_succ_of_le hle) hlast⟩
  obtain ⟨node, hnode, hfree⟩ := hroom.nonFull path.depth (Nat.le_refl _)
  obtain rfl : node = leaf := Option.some.inj (hnode.symm.trans hloc.leafNode)
  rw [wp_bind, wp_node]
  refine ⟨node, hloc.leafNode, ?_⟩
  dsimp only
  have hstop := stop_extent node.extent
  obtain ⟨-, hrange, -, -⟩ := extentInRange_iff.mp (ok.inRange _ hmem)
  have hend : sub64 (node.extent.firstBlock + extentGetActualLen node.extent) 1 = stop node.extent - 1 := by
    unfold sub64
    omega
  rw [hend, if_neg (by omega)]
  refine wp_mono (wp_splitEntry hw hcnt hrep ok hloc hpos hlt hle hlast hfree) ?_ ?_
  · rintro _ s' ⟨t', hcut⟩
    exact ⟨d', t', hcut.after rfl hold.ok hre⟩
  · rintro err s' ⟨hreads, hfail⟩
    refine Or.inl ⟨d', own, t₁, hre.reads hreads, fun _ => Or.inl ?_⟩
    exact hfail.troubled.earlier hre.spent.suffix

end Lemmas

end EspLwext4
