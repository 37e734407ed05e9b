import EspLwext4.Extent.Placing

/-!
# Inserting an extent into a tree

`insert_extent` puts a new extent that lies apart from the others into the tree, or fails.
It fails on a tree with the old extents, inside a split that makes room, or above a leaf
that has the new extent already.
-/

namespace EspLwext4

open Prog Bytes Ranged

variable (inodeRef : InodeRef) (g : Grade)

/-- Where a search for `v` ends below the root, the leaf has an entry and declares more
than four. -/
def LeafReady (D : Disk) {d : ℕ} (t : SepTree Ext4Extent d) (v : ℕ) : Prop :=
  ∀ (c : Ctx Ext4Extent 0 d) b es, c.plug (.leaf b es) = t → c.Chosen v → b ≠ 0 →
    es ≠ [] ∧ 4 < (D.header (Place.of b)).maxEntriesCount

/-- `insert_extent` failed: before it wrote the leaf, or above the leaf. -/
def InsertFailed (base : Multiset ℕ) (s s' : St) {d : ℕ} (t : SepTree Ext4Extent d)
    (new : Ext4Extent) (err : Errno) : Prop :=
  RoomFailed inodeRef g base s s' t err ∨
    ∃ (d' : ℕ) (own : Multiset ℕ) (t' : SepTree Ext4Extent d'),
      Misplaced inodeRef g base s s' t new own t' ∧ ReadFailed inodeRef s s' .writeIndexAt err

section Lemmas

variable {inodeRef g} {base own own' : Multiset ℕ} {s s₁ s' : St} {d d' d'' b : ℕ}
variable {t : SepTree Ext4Extent d} {t₁ : SepTree Ext4Extent d'} {t' : SepTree Ext4Extent d''}
variable {c : Ctx Ext4Extent 0 d} {es l r : List Ext4Extent} {new x y : Ext4Extent}
variable {path : ExtentSearchPath} {leaf : ExtentPathNode} {lblock pos : ℕ} {err : Errno}

/-- In the trees the code builds every leaf is ready. -/
theorem leafReady_built (hrep : Rep inodeRef .built s.bytes t) (ok : TreeOk inodeRef .built t)
    (v : ℕ) : LeafReady s.bytes t v := by
  intro c b es hplug _ hb
  have hleaf : RepAt inodeRef .built s.bytes (.leaf b es) :=
    ((Ctx.all_plug c _).mp (hplug ▸ hrep)).1
  have hcap := inodeRef.capacity_ge
  have hmax : (s.bytes.header (Place.of b)).maxEntriesCount = capacity inodeRef :=
    hleaf.declares rfl hb
  refine ⟨?_, by omega⟩
  rcases ok.bushy with rfl | hbushy
  · cases c with
    | nil =>
        have haddr := ok.addr
        rw [← hplug] at haddr
        exact absurd haddr hb
    | cons f c =>
        have := (Ctx.cons f c).depth_eq
        rw [Ctx.length] at this
        omega
  · have hbushy' : (c.plug (.leaf b es)).Bushy Grade.built.Holds := hplug ▸ hbushy
    exact SepTree.all_leaf.mp ((Ctx.all_plug c _).mp hbushy').1 rfl

theorem Cursor.found_eq_none (h : Cursor lblock leaf es) : leaf.found = none ↔ es = [] := by
  unfold ExtentPathNode.found
  cases h with
  | empty _ hhave => simp [hhave]
  | entry l x r _ _ hhave _ _ => simp [hhave]

/-- What the 32-bit test admits is covered. -/
theorem covers_of_inExtent (h : inExtent x lblock = true) : first x ≤ lblock ∧ lblock < stop x := by
  unfold inExtent at h
  rw [Bool.and_eq_true, decide_eq_true_eq, decide_eq_true_eq] at h
  exact ⟨h.1, Nat.lt_of_lt_of_le h.2 (Nat.mod_le _ _)⟩

/-! ## What was done before -/

theorem Placed.after (hre : Reshaped inodeRef g base s s₁ t own t₁)
    (h : Placed inodeRef g (own + base) s₁ s' t₁ new own' t') :
    Placed inodeRef g base s s' t new (own' + own) t' := by
  refine ⟨h.rep, hre.spent.trans h.spent, ?_, ?_, h.fit, fun hkeys => h.sorted fun v hle hlt => ?_,
    fun hex => h.exact (hre.content.exact hex), fun v e hle hlt hstray he => ?_⟩
  · rw [h.addrs, hre.addrs, add_assoc]
  · rw [← hre.content.items]
    exact h.items
  · rw [hre.content.seek, hre.content.seek]
    exact hkeys v hle hlt
  · rw [← hre.content.items]
    exact h.strays v e hle hlt (by rwa [hre.content.seek, hre.content.seek]) he

theorem Placed.after_reads (h : Placed inodeRef g base s₁ s' t new own t') (hreads : Reads s s₁) :
    Placed inodeRef g base s s' t new own t' :=
  ⟨h.rep, .after hreads.quiet h.spent, h.addrs, h.items, h.fit, h.sorted, h.exact, h.strays⟩

theorem Put.after (hre : Reshaped inodeRef g base s s₁ t own t₁)
    (h : Put inodeRef g (own + base) s₁ s' t₁ new own' t') :
    Put inodeRef g base s s' t new (own' + own) t' := by
  have hplaced := h.placed
  have hbelongs := h.belongs
  rw [hre.content.items] at hplaced hbelongs
  exact ⟨h.rep, hre.spent.trans h.spent, h.addr, fun hb => (hplaced hb).after hre, hbelongs⟩

theorem Put.after_reads (h : Put inodeRef g base s₁ s' t new own t') (hreads : Reads s s₁) :
    Put inodeRef g base s s' t new own t' :=
  ⟨h.rep, .after hreads.quiet h.spent, h.addr, fun hb => (h.placed hb).after_reads hreads, h.belongs⟩

theorem Misplaced.after (hre : Reshaped inodeRef g base s s₁ t own t₁)
    (h : Misplaced inodeRef g (own + base) s₁ s' t₁ new own' t') :
    Misplaced inodeRef g base s s' t new (own' + own) t' := by
  refine ⟨h.rep, hre.spent.trans h.spent, h.addr, ?_, ?_⟩
  · rw [h.addrs, hre.addrs, add_assoc]
  · rw [← hre.content.items]
    exact h.items

theorem InsertFailed.after (hre : Reshaped inodeRef g base s s₁ t own t₁)
    (h : InsertFailed inodeRef g (own + base) s₁ s' t₁ new err) :
    InsertFailed inodeRef g base s s' t new err := by
  rcases h with hroom | ⟨d', own', t', hmis, hread⟩
  · exact Or.inl (hroom.after hre)
  · exact Or.inr ⟨d', own' + own, t', hmis.after hre, hread.earlier hre.spent.suffix⟩

theorem InsertFailed.after_reads (h : InsertFailed inodeRef g base s₁ s' t new err)
    (hold : Holding inodeRef g base s t) (hreads : Reads s s₁) :
    InsertFailed inodeRef g base s s' t new err :=
  InsertFailed.after ((Reshaped.refl hold).reads hreads) (by rwa [zero_add])

/-- A read failed while the tree stood. -/
theorem InsertFailed.of_io (hold : Holding inodeRef g base s t) (hreads : Reads s s')
    (h : IoFailed inodeRef s s' err) : InsertFailed inodeRef g base s s' t new err :=
  Or.inl (Or.inl ⟨d, 0, t, (Reshaped.refl hold).reads hreads, fun _ => Or.inl (Or.inl h)⟩)

/-! ## Merging with a neighbour -/

section Leaf

variable (hloc : Located inodeRef s.bytes t lblock path c b es leaf)

include hloc

theorem Located.nodeSane : NodeSane inodeRef leaf :=
  let ⟨_, hpath⟩ := hloc.pathOk
  hpath.leafOk.sane

theorem Located.mem_items {e : Ext4Extent} (he : e ∈ es) : e ∈ t.items := by
  rw [← hloc.plug, Ctx.items_plug]
  exact List.mem_append_left _ (List.mem_append_right _ he)

theorem Located.apart (ok : TreeOk inodeRef g t) : Apart es :=
  (SepTree.all_leaf.mp ((Ctx.all_plug c (.leaf b es)).mp (hloc.plug ▸ ok.fit)).1).sorted

theorem Located.extent_at (hrep : Rep inodeRef g s.bytes t) (hes : es = l ++ y :: r)
    (hpos : pos = l.length) :
    pos < leaf.header.entriesCount ∧ s.bytes.extent leaf.place pos = y := by
  have hslots : s.bytes.slots (Place.of b) = l ++ y :: r :=
    (show s.bytes.slots (Place.of b) = es from (hloc.leafRep hrep).entries).trans hes
  have hi : pos < (s.bytes.slots (Place.of b)).length := by rw [hslots, hpos]; simp
  constructor
  · rw [hloc.leafAt.header, ← Disk.length_slots]
    exact hi
  · have hplace : leaf.place = Place.of b := by
      rw [ExtentPathNode.place, hloc.leafAt.pblockOfNode]
    have hget := Disk.getElem_slots hi
    rw [hplace, ← hget]
    subst hpos
    simp [hslots]

theorem Located.wp_nodeGetExtent (hrep : Rep inodeRef g s.bytes t) (hes : es = l ++ y :: r)
    (hpos : pos = l.length) :
    wp (nodeGetExtent inodeRef leaf pos) (fun x s' => x = y ∧ Reads s s')
      (fun err s' => Reads s s' ∧ AccessFailed inodeRef s s' err) s := by
  obtain ⟨hlt, hextent⟩ := hloc.extent_at hrep hes hpos
  refine wp_mono (EspLwext4.wp_nodeGetExtent hloc.nodeSane hlt) ?_ fun _ _ h => h
  rintro x s' ⟨rfl, hreads⟩
  exact ⟨hextent, hreads⟩

end Leaf

/-- `can_merge` is wrong about an extent in front of the new one only when that extent ends
at 2^32 and the new one starts at 0, and then it is the first of the tree. -/
theorem touch_of_canMerge (ok : TreeOk inodeRef g t)
    (hloc : Located inodeRef s.bytes t (first new) path c b (l ++ x :: r) leaf)
    (hcont : Continues new t.items) (hle : l = [] ∨ first x ≤ first new)
    (hmerge : canMerge x new = true) : stop x = first new := by
  have hx := hloc.mem_items (e := x) (by simp)
  obtain ⟨hlen, hstop, -⟩ := extentInRange_iff.mp (ok.inRange x hx)
  have htouch : u32 (x.firstBlock + extentGetActualLen x) = first new :=
    (canMerge_iff.mp hmerge).2.1
  rcases Nat.lt_or_eq_of_le hstop with hlt | heq
  · rwa [u32_of_lt hlt] at htouch
  · have h0 : first new = 0 := by
      rw [← htouch, heq]
      rfl
    have hpos {e : Ext4Extent} (he : e ∈ t.items) : 0 < stop e :=
      Nat.lt_of_le_of_lt (Nat.zero_le _) (first_lt_stop (ok.inRange e he))
    -- nothing lies in front of block 0
    have hl : l = [] := by
      refine List.eq_nil_iff_forall_not_mem.mpr fun e he => ?_
      have hex := (List.pairwise_append.mp (hloc.apart ok)).2.2 e he x (by simp)
      have hxle := hle.resolve_left (List.ne_nil_of_mem he)
      have := hpos (hloc.mem_items (List.mem_append_left _ he))
      omega
    have hleft : c.itemsLeft = [] := by
      refine List.eq_nil_iff_forall_not_mem.mpr fun e he => ?_
      have hmarks := ok.sorted
      rw [← hloc.plug, Ctx.marks_plug, List.pairwise_append, List.pairwise_append] at hmarks
      have hkept := (hloc.chosen.admits (ok.sorted_post hloc.plug)).kept_le hmarks.1.1 _
        (Ctx.bounds_itemsLeft he).2
      have := hpos (by
        rw [← hloc.plug, Ctx.items_plug]
        exact List.mem_append_left _ (List.mem_append_left _ he) : e ∈ t.items)
      omega
    refine hcont x ?_ hmerge
    rw [← hloc.plug, Ctx.items_plug, hleft, hl]
    rfl

/-- A new extent that continues the one in front of it. -/
theorem merges_before (hx : extentInRange inodeRef x = true) (hmerge : canMerge x new = true)
    (htouch : stop x = first new) : Merges x new (mergedExtent x new) :=
  ⟨first_lt_stop hx, hmerge, htouch, rfl⟩

section Belongs

variable (ok : TreeOk inodeRef g t)
  (hloc : Located inodeRef s.bytes t (first new) path c b (l ++ x :: r) leaf)
  (hnew : Fresh inodeRef new)

include ok hloc hnew

theorem Located.belongs_left (hmerge : canMerge x new = true)
    (hin : ∀ e ∈ c.itemsLeft ++ (l ++ mergedExtent x new :: r) ++ c.itemsRight,
      extentInRange inodeRef e = true)
    (hap : Apart (c.itemsLeft ++ (l ++ mergedExtent x new :: r) ++ c.itemsRight)) :
    Belongs inodeRef new t.items := by
  have hassoc (z : Ext4Extent) : c.itemsLeft ++ (l ++ z :: r) ++ c.itemsRight =
      (c.itemsLeft ++ l) ++ z :: (r ++ c.itemsRight) := by simp
  rw [hassoc] at hin hap
  exact hnew.belongs_left ok.inRange (hloc.items.trans (hassoc x)) hmerge hin hap

theorem Located.belongs_right (h0 : 0 < first new) (hmerge : canMerge new x = true)
    (hin : ∀ e ∈ c.itemsLeft ++ (l ++ mergedExtent new x :: r) ++ c.itemsRight,
      extentInRange inodeRef e = true)
    (hap : Apart (c.itemsLeft ++ (l ++ mergedExtent new x :: r) ++ c.itemsRight)) :
    Belongs inodeRef new t.items := by
  have hassoc (z : Ext4Extent) : c.itemsLeft ++ (l ++ z :: r) ++ c.itemsRight =
      (c.itemsLeft ++ l) ++ z :: (r ++ c.itemsRight) := by simp
  rw [hassoc] at hin hap
  exact hnew.belongs_right ok.inRange (hloc.items.trans (hassoc x)) h0 hmerge hin hap

end Belongs

/-- `mergeIf` when its guard and `can_merge` hold. -/
theorem wp_mergeIf {p : Prop} [Decidable p] {pair : Ext4Extent → Ext4Extent × Ext4Extent}
    {Q : Bool → St → Prop} {E : Errno → St → Prop} (hno : ¬ p → Q false s)
    (hyes : p → wp (nodeGetExtent inodeRef leaf pos) (fun other s₁ =>
      (canMerge (pair other).1 (pair other).2 = true →
        wp (mergeExtent inodeRef path (pair other).1 (pair other).2 pos)
          (fun merged s₂ => wp (storeMergedInRoot inodeRef leaf pos merged) (fun _ => Q true) E s₂)
          E s₁) ∧
      (canMerge (pair other).1 (pair other).2 = false → Q false s₁)) E s) :
    wp (mergeIf inodeRef path leaf p pos pair) Q E s := by
  unfold mergeIf
  rw [wp_ite]
  refine ⟨fun hp => ?_, hno⟩
  rw [wp_bind]
  refine wp_mono (hyes hp) (fun other s₁ h => ?_) fun _ _ h => h
  rw [wp_ite]
  refine ⟨fun hmerge => ?_, fun hmerge => h.2 (by simpa using hmerge)⟩
  rw [wp_bind]
  refine wp_mono (h.1 hmerge) (fun merged s₂ h => ?_) fun _ _ h => h
  rw [wp_bind]
  exact h

section Neighbours

variable (hold : Holding inodeRef g base s t)
  (hloc : Located inodeRef s.bytes t (first new) path c b (l ++ x :: r) leaf)
  (hnew : Fresh inodeRef new) (hmax : b ≠ 0 → 4 < leaf.header.maxEntriesCount)

include hold hloc hnew hmax

/-- The entry behind the cursor is merged when it continues the new extent. -/
theorem wp_mergeNext (hlt : ∀ y ∈ r.head?, first new < first y) :
    wp (mergeIf inodeRef path leaf (l.length < leaf.header.entriesCount - 1 ∧
        u32 (x.firstBlock + extentGetActualLen x) < new.firstBlock) (l.length + 1)
        fun next => (new, next))
      (fun merged s' => if merged then
        ∃ t' : SepTree Ext4Extent d, Put inodeRef g base s s' t new 0 t' else Reads s s')
      (fun err s' => WritesSucceed inodeRef → Reads s s' ∧ IoFailed inodeRef s s' err) s := by
  have hsorted := hloc.apart hold.ok
  have hcount := hloc.leafAt.count
  refine wp_mergeIf (fun _ => Reads.refl s) ?_
  rintro ⟨hlast, hbefore⟩
  obtain ⟨y, r, rfl⟩ : ∃ y r', r = y :: r' := by
    refine List.exists_cons_of_ne_nil fun hr => ?_
    rw [hcount, hr, List.length_append, List.length_singleton] at hlast
    omega
  have hy := hold.rep.items_fits y (hloc.mem_items (by simp))
  have hxy : stop x ≤ first y := (List.pairwise_cons.mp (List.pairwise_append.mp hsorted).2.1).1 y (by simp)
  have hfirst : first x ≤ first new := by
    have hylt := hy.firstBlock
    rw [first_extent, stop_extent] at hxy
    rw [u32_of_lt (by omega)] at hbefore
    exact Nat.le_trans (Nat.le_add_right _ _) (Nat.le_of_lt hbefore)
  have hsplit : l ++ x :: y :: r = (l ++ [x]) ++ y :: r := by simp
  refine wp_mono (hloc.wp_nodeGetExtent hold.rep hsplit (by simp)) ?_
    fun _ _ h _ => ⟨h.1, h.2.io⟩
  rintro other s₁ ⟨hother, h₁⟩
  rw [hother]
  refine ⟨fun hmerge => ?_, fun _ => h₁⟩
  have hold₁ := hold.reads h₁
  have hloc₁ : Located inodeRef s₁.bytes t (first new) path c b (l ++ x :: y :: r) leaf := by
    rw [h₁.bytes]; exact hloc
  refine wp_mono (wp_mergeExtent (hloc₁.leafRep hold₁.rep) hloc₁.leafAt hloc.leafNode hsplit
    (by simp) (mergedExtent_fits hmerge hnew.fits) hmax) ?_ ?_
  · intro merged s₂ h₂
    refine wp_mono h₂ (fun _ s₃ h₃ => ?_) fun _ _ hn hw => absurd hw hn
    have hedit (hb : Belongs inodeRef new t.items) :
        LeafEdit new c (l ++ x :: y :: r) (l ++ [x] ++ mergedExtent new y :: r) false := by
      obtain ⟨hleft, hstop, hright⟩ :=
        cursor_bounds (hb.insertable.mono fun e he => hloc.mem_items he) hsorted hfirst hlt
      have hmerges : Merges new y (mergedExtent new y) :=
        ⟨hnew.first_lt, hmerge, stop_eq_of_canMerge hy (hright y (by simp)) hmerge, rfl⟩
      refine .merge_right hmerges hsplit (by simp) (fun e he => ?_) fun e he => hright e (by simp [he])
      rcases List.mem_append.mp he with he | he
      · exact hleft e he
      · rw [List.mem_singleton.mp he]
        exact hstop
    have hloc' : Located inodeRef s.bytes t (first new) path c b ((l ++ [x]) ++ y :: r) leaf := by
      rw [← hsplit]; exact hloc
    exact ⟨_, (put_of_rewrote hloc₁ hold₁.rep hold₁.ok hedit h₃ (hloc₁.leafRep hold₁.rep).leafHeader
      (hloc'.belongs_right hold.ok hnew (Nat.zero_lt_of_lt hbefore) hmerge)).after_reads h₁⟩
  · intro err s₂ h hw
    obtain ⟨h₂, hread⟩ := h hw
    exact ⟨h₁.trans h₂, hread.io.trans h₁⟩

/-- The entry in front of the cursor ends before the cursor's entry, and that one before a new
extent with a place among them, so it never continues into it. -/
theorem wp_mergePrev (hle : l = [] ∨ first x ≤ first new) :
    wp (mergeIf inodeRef path leaf (0 < l.length ∧
        u32 (new.firstBlock + extentGetActualLen new) < x.firstBlock) (l.length - 1)
        fun prev => (prev, new))
      (fun merged s' => if merged then
        ∃ t' : SepTree Ext4Extent d, Put inodeRef g base s s' t new 0 t' else Reads s s')
      (fun err s' => WritesSucceed inodeRef → Reads s s' ∧ IoFailed inodeRef s s' err) s := by
  have hsorted := hloc.apart hold.ok
  refine wp_mergeIf (fun _ => Reads.refl s) ?_
  rintro ⟨hpos, -⟩
  have hl : l ≠ [] := List.ne_nil_of_length_pos hpos
  have hfirst : first x ≤ first new := hle.resolve_left hl
  obtain ⟨l', y, rfl⟩ : ∃ l' y, l = l' ++ [y] :=
    ⟨l.dropLast, l.getLast hl, (List.dropLast_append_getLast hl).symm⟩
  have hx : x ∈ l' ++ [y] ++ x :: r := by simp
  have hy : y ∈ l' ++ [y] ++ x :: r := by simp
  have hsplit : l' ++ [y] ++ x :: r = l' ++ y :: x :: r := by simp
  refine wp_mono (hloc.wp_nodeGetExtent hold.rep hsplit (by simp)) ?_
    fun _ _ h _ => ⟨h.1, h.2.io⟩
  rintro other s₁ ⟨hother, h₁⟩
  rw [hother]
  refine ⟨fun hmerge => ?_, fun _ => h₁⟩
  have hyx : stop y ≤ first x := (List.pairwise_append.mp hsorted).2.2 y (by simp) x (by simp)
  have hxfits := (hold.rep.items_fits x (hloc.mem_items hx)).firstBlock
  have hxlt := first_lt_stop (hold.ok.inRange x (hloc.mem_items hx))
  have htouch : u32 (stop y) = first new := (canMerge_iff.mp hmerge).2.1
  rw [u32_of_lt (Nat.lt_of_le_of_lt hyx hxfits)] at htouch
  have hold₁ := hold.reads h₁
  have hloc₁ : Located inodeRef s₁.bytes t (first new) path c b (l' ++ [y] ++ x :: r) leaf := by
    rw [h₁.bytes]; exact hloc
  have hyfits := hold.rep.items_fits y (hloc.mem_items hy)
  refine wp_mono (wp_mergeExtent (hloc₁.leafRep hold₁.rep) hloc₁.leafAt hloc.leafNode hsplit
    (by simp) (mergedExtent_fits hmerge hyfits) hmax) ?_ ?_
  · intro merged s₂ h₂
    refine wp_mono h₂ (fun _ s₃ h₃ => ?_) fun _ _ hn hw => absurd hw hn
    have hloc' : Located inodeRef s.bytes t (first new) path c b (l' ++ y :: x :: r) leaf := by
      rw [← hsplit]; exact hloc
    refine ⟨_, (put_of_rewrote hloc₁ hold₁.rep hold₁.ok (fun hb => ?_) h₃
      (hloc₁.leafRep hold₁.rep).leafHeader
      (hloc'.belongs_left hold.ok hnew hmerge)).after_reads h₁⟩
    have hxstop := hb.insertable.stop_le (hloc.mem_items hx) hfirst
    omega
  · intro err s₂ h hw
    obtain ⟨h₂, hread⟩ := h hw
    exact ⟨h₁.trans h₂, hread.io.trans h₁⟩

/-- The neighbours of the cursor's entry. -/
theorem wp_mergeWithNeighbour (hpos : leaf.position = l.length)
    (hextent : leaf.extent = x) (hle : l = [] ∨ first x ≤ first new)
    (hlt : ∀ y ∈ r.head?, first new < first y) :
    wp (mergeWithNeighbour inodeRef path leaf new)
      (fun merged s' => if merged then
        ∃ t' : SepTree Ext4Extent d, Put inodeRef g base s s' t new 0 t' else Reads s s')
      (fun err s' => WritesSucceed inodeRef → Reads s s' ∧ IoFailed inodeRef s s' err) s := by
  unfold mergeWithNeighbour
  rw [hpos, hextent, wp_bind]
  refine wp_mono (wp_mergeNext hold hloc hnew hmax hlt) ?_ fun _ _ h => h
  rintro merged s₁ h₁
  rw [wp_ite]
  constructor
  · rintro rfl
    exact h₁
  · intro hmerged
    rw [if_neg hmerged] at h₁
    have hloc₁ : Located inodeRef s₁.bytes t (first new) path c b (l ++ x :: r) leaf := by
      rw [h₁.bytes]; exact hloc
    refine wp_mono (wp_mergePrev (hold.reads h₁) hloc₁ hnew hmax hle) ?_ ?_
    · rintro (_ | _) s₂ h₂
      · exact h₁.trans h₂
      · obtain ⟨t', hput⟩ := h₂
        exact ⟨t', hput.after_reads h₁⟩
    · intro err s₂ h hw
      obtain ⟨h₂, hfail⟩ := h hw
      exact ⟨h₁.trans h₂, hfail.trans h₁⟩

end Neighbours

/-! ## Inserting -/

section Body

variable {reinsert : ℕ → Ext4Extent → M Unit}

/-- Room first, when the leaf is full. -/
theorem wp_insertWithRoom
    (hcnt : inodeRef.blocksCnt ≤ pblockLimit) (hold : Holding inodeRef g base s t)
    (hloc : Located inodeRef s.bytes t (first new) path c b es leaf)
    (hnew : Fresh inodeRef new) (hsole : ∀ e, t.items = [e] → canMerge e new = false)
    (hne : es ≠ []) :
    wp (insertWithRoom inodeRef reinsert path leaf new.firstBlock new)
      (fun _ s' => ∃ (d' : ℕ) (own : Multiset ℕ) (t' : SepTree Ext4Extent d'),
        Put inodeRef g base s s' t new own t')
      (fun err s' => WritesSucceed inodeRef → Belongs inodeRef new t.items →
        InsertFailed inodeRef g base s s' t new err) s := by
  -- the insertion itself, on this tree or on the one with room
  have insert {s₁ : St} {d' : ℕ} {own : Multiset ℕ} {t₁ : SepTree Ext4Extent d'}
      {path : ExtentSearchPath} {c : Ctx Ext4Extent 0 d'} {b : ℕ} {es : List Ext4Extent}
      {leaf : ExtentPathNode} (hre : Reshaped inodeRef g base s s₁ t own t₁)
      (hloc : Located inodeRef s₁.bytes t₁ (first new) path c b es leaf) (hne : es ≠ [])
      (hroom : leaf.header.entriesCount < leaf.header.maxEntriesCount) :
      wp (insertNewExtent inodeRef reinsert path new)
        (fun _ s' => ∃ (d' : ℕ) (own : Multiset ℕ) (t' : SepTree Ext4Extent d'),
          Put inodeRef g base s s' t new own t')
        (fun err s' => WritesSucceed inodeRef → Belongs inodeRef new t.items →
          InsertFailed inodeRef g base s s' t new err) s₁ := by
    refine wp_mono (wp_insertNewExtent hre.holding hloc hnew ?_ hne hroom) ?_ ?_
    · rw [hre.content.items]
      exact hsole
    · rintro _ s' ⟨t', h⟩
      exact ⟨_, _, t', h.after hre⟩
    · intro err s' h hw hb
      rw [hre.content.items] at h
      rcases h hw hb with ⟨hreads, hread⟩ | ⟨t', hmis, hread⟩
      · exact (InsertFailed.of_io hre.holding hreads hread.io).after hre
      · exact InsertFailed.after hre (Or.inr ⟨_, _, t', hmis, hread⟩)
  unfold insertWithRoom
  rw [wp_ite]
  constructor
  · intro hroom
    exact insert (.refl hold) hloc hne hroom
  · intro _
    rw [wp_bind]
    refine wp_mono (wp_ensureInsertRoom hcnt hold) ?_ fun err s' h hw _ => Or.inl (h hw)
    rintro path₁ s₁ ⟨d', own, t₁, c₁, b₁, es₁, leaf₁, hmade⟩
    have hloc₁ := hmade.toLocated
    have hroom : leaf₁.header.entriesCount < leaf₁.header.maxEntriesCount := by
      obtain ⟨node, hnode, hlt⟩ := hmade.nonFull path₁.depth (Nat.le_refl _)
      obtain rfl : node = leaf₁ := Option.some.inj (hnode.symm.trans hloc₁.leafNode)
      exact hlt
    -- the search ends at the same entry as before
    have hfound : leaf₁.found = leaf.found := by
      rw [hloc₁.seek_eq (hmade.holding.ok.fit.imp fun _ _ hu => hu.sortedAt),
        hloc.seek_eq (hold.ok.fit.imp fun _ _ hu => hu.sortedAt), hmade.content.seek]
      rfl
    have hne₁ : es₁ ≠ [] := by
      rwa [Ne, ← hloc₁.leafAt.cursor.found_eq_none, hfound, hloc.leafAt.cursor.found_eq_none]
    rw [wp_bind, wp_node]
    refine ⟨leaf₁, hloc₁.leafNode, ?_⟩
    rw [wp_ite]
    exact ⟨fun hfull => absurd hroom (Nat.not_lt.mpr hfull),
      fun _ => insert hmade.toReshaped hloc₁ hne₁ hroom⟩

/-- The first extent of a tree. -/
theorem wp_insertNewExtent_empty (hold : Holding inodeRef g base s t)
    (hloc : Located inodeRef s.bytes t (first new) path c b [] leaf) (hb : b = 0)
    (hnew : Fresh inodeRef new) :
    wp (insertNewExtent inodeRef reinsert path new)
      (fun _ s' => ∃ t' : SepTree Ext4Extent d, Put inodeRef g base s s' t new 0 t')
      (fun _ _ => ¬ WritesSucceed inodeRef) s := by
  have hleaf := hloc.leafRep hold.rep
  have hcount := hloc.leafAt.count
  have hdepth := (hloc.addr_eq_zero_iff hold.ok).mp hb
  subst hb
  have hh : LeafHeader inodeRef g 0 (leaf.header.withCount 1) := by
    rw [hloc.leafAt.header]
    exact hleaf.leafHeader.withCount hleaf.standing.headerOk.pos
  have hhead : (leaf.header.withCount 1).Fits := by
    rw [hloc.leafAt.header]
    exact (s.bytes.header_fits _).withCount (by decide)
  unfold insertNewExtent
  rw [wp_bind, wp_node]
  refine ⟨leaf, hloc.leafNode, ?_⟩
  rw [wp_ite]
  refine ⟨fun _ => ?_, fun h => absurd hdepth h⟩
  rw [wp_ite]
  refine ⟨fun _ => ?_, fun h => absurd hcount h⟩
  rw [wp_bind, wp_storeExtent]
  refine ⟨hleaf.standing.headerOk.fits_one, ?_⟩
  rw [wp_bind, wp_storeHeader]
  simp only [St.setBytes_setBytes, St.bytes_setBytes, Disk.set_self]
  have hrec : extentLayout.records (s.bytes .root) 0 = [] ++ [] := rfl
  have hstored : Stored s .root (leaf.header.withCount 1) [new] (s.setBytes .root
      (headerStore (extentStore (s.bytes .root) (entryOff 0) new) (leaf.header.withCount 1))) := by
    refine ⟨_, rfl, headerLoad_headerStore hhead, ?_⟩
    have hfits : leaf.header.Fits := by
      rw [hloc.leafAt.header]
      exact s.bytes.header_fits _
    exact slots_inserted hfits hrec rfl (by decide) (extent_get_extentStore_self hnew.fits)
      fun i hi => extent_get_extentStore_ne hi
  have hfinish := wp_finishNode_stored hloc.leafAt.pblockOfNode (.refl s) rfl
    hstored hh.headerOk
  unfold finishNode at hfinish
  rw [if_pos hloc.leafAt.pblockOfNode] at hfinish
  refine wp_mono hfinish (fun _ s' hr => ?_) fun _ _ h => h
  have hedit : LeafEdit new c [] ([] ++ new :: []) false :=
    .own_slot rfl (Or.inl (hloc.depth.symm.trans hdepth)) (fun _ he => (by cases he))
      fun _ he => (by cases he)
  have hitems : t.items = [] := by
    rw [hloc.items, Ctx.itemsLeft_of_length (hloc.depth.symm.trans hdepth),
      (Ctx.eq_nil_of_length (hloc.depth.symm.trans hdepth)).2]
    rfl
  refine ⟨_, put_of_rewrote hloc hold.rep hold.ok (fun _ => hedit) hr hh fun hin hap => ?_⟩
  refine hnew.belongs_own (l := c.itemsLeft) (r := c.itemsRight) hold.ok.inRange ?_
    hold.ok.treeFit.apart (fun e he => ?_) (by simpa using hin) (by simpa using hap)
  · rw [hloc.items, List.append_nil]
  · rw [hitems] at he
    cases he

/-- What `insert_extent` does once it has the path. -/
theorem wp_insertExtentBody
    (hcnt : inodeRef.blocksCnt ≤ pblockLimit) (hold : Holding inodeRef g base s t)
    (hnew : Fresh inodeRef new) (hready : LeafReady s.bytes t (first new)) :
    wp (insertExtentBody inodeRef reinsert new.firstBlock new)
      (fun _ s' => ∃ (d' : ℕ) (own : Multiset ℕ) (t' : SepTree Ext4Extent d'),
        Put inodeRef g base s s' t new own t')
      (fun err s' => WritesSucceed inodeRef → Belongs inodeRef new t.items →
        InsertFailed inodeRef g base s s' t new err) s := by
  unfold insertExtentBody
  rw [wp_bind]
  refine wp_mono (wp_findExtent_located hold.rep hold.ok) ?_ fun err s' h _ _ =>
    InsertFailed.of_io hold h.1 h.2.io
  rintro path s₁ ⟨h₁, c, b, es, leaf, hloc⟩
  have hready' := hready c b es hloc.plug hloc.chosen
  rw [← h₁.bytes] at hloc hready'
  have hold₁ := hold.reads h₁
  have hcount := hloc.leafAt.count
  rw [wp_bind, wp_node]
  refine ⟨leaf, hloc.leafNode, ?_⟩
  rw [wp_ite]
  constructor
  · intro h0
    obtain rfl : es = [] := List.eq_nil_of_length_eq_zero (hcount.symm.trans h0)
    have hb : b = 0 := by
      by_contra hb
      exact (hready' hb).1 rfl
    refine wp_mono (wp_insertNewExtent_empty hold₁ hloc hb hnew) ?_
      fun _ _ hn hw => absurd hw hn
    rintro _ s' ⟨t', h⟩
    exact ⟨_, _, t', h.after_reads h₁⟩
  intro hne0
  have hne : es ≠ [] := by
    rintro rfl
    exact hne0 hcount
  have hmax : b ≠ 0 → 4 < leaf.header.maxEntriesCount := fun hb => by
    rw [hloc.leafAt.header]
    exact (hready' hb).2
  have hcursor := hloc.leafAt.cursor
  generalize hes : es = es' at hcursor
  cases hcursor with
  | empty => exact absurd hes hne
  | entry l x r hpos hextent hhave hle hlt =>
    subst hes
    have hx := hloc.mem_items (e := x) (by simp)
    have hsorted := hloc.apart hold.ok
    rw [wp_ite]
    refine ⟨fun _ => ?_, fun h => absurd hhave h⟩
    rw [hextent]
    dsimp only
    rw [wp_ite]
    constructor
    · -- the new extent would start inside the entry
      intro hin _ hb
      obtain ⟨hfirst, hstop⟩ := covers_of_inExtent hin
      have hend := hb.insertable.stop_le hx hfirst
      exact absurd hstop (Nat.not_lt.mpr hend)
    intro _
    rw [wp_ite]
    constructor
    · intro hmerge
      have hedit (hb : Belongs inodeRef new t.items) :
          LeafEdit new c (l ++ x :: r) (l ++ mergedExtent x new :: r) false := by
        have hmerges := merges_before (hold.ok.inRange x hx) hmerge
          (touch_of_canMerge hold.ok hloc hb.continues hle hmerge)
        have hfirst : first x ≤ first new :=
          Nat.le_trans (Nat.le_of_lt hmerges.pos) (Nat.le_of_eq hmerges.touch)
        obtain ⟨hleft, -, hright⟩ := cursor_bounds
          (hb.insertable.mono fun e he => hloc.mem_items he) hsorted hfirst hlt
        exact .merge_left hmerges rfl hleft hright
      rw [wp_bind]
      refine wp_mono (wp_mergeExtent (hloc.leafRep hold₁.rep) hloc.leafAt hloc.leafNode rfl hpos
        (mergedExtent_fits hmerge (hold.rep.items_fits x hx)) hmax) ?_ ?_
      · intro merged s₂ h₂
        refine wp_mono h₂ (fun _ s₃ h₃ => ?_) fun _ _ hn hw => absurd hw hn
        exact ⟨_, _, _, (put_of_rewrote hloc hold₁.rep hold.ok hedit h₃
          (hloc.leafRep hold₁.rep).leafHeader
          (hloc.belongs_left hold.ok hnew hmerge)).after_reads h₁⟩
      · intro err s₂ h hw _
        obtain ⟨h₂, hread⟩ := h hw
        exact InsertFailed.of_io hold (h₁.trans h₂) (hread.io.trans h₁)
    intro hmerge
    have hsole : ∀ e, t.items = [e] → canMerge e new = false := by
      intro e he
      rw [he, List.mem_singleton] at hx
      rw [← hx]
      exact Bool.eq_false_iff.mpr hmerge
    rw [wp_bind]
    refine wp_mono (wp_mergeWithNeighbour hold₁ hloc hnew hmax hpos hextent hle hlt) ?_ ?_
    · intro merged s₂ h₂
      rw [wp_ite]
      constructor
      · rintro rfl
        obtain ⟨t', h⟩ := h₂
        exact ⟨_, _, t', h.after_reads h₁⟩
      · intro hmerged
        rw [if_neg hmerged] at h₂
        have h₁₂ := h₁.trans h₂
        have hloc₂ : Located inodeRef s₂.bytes t (first new) path c b (l ++ x :: r) leaf := by
          rw [h₂.bytes]; exact hloc
        refine wp_mono (wp_insertWithRoom hcnt (hold.reads h₁₂) hloc₂ hnew hsole hne) ?_ ?_
        · rintro _ s₃ ⟨d', own, t', h⟩
          exact ⟨d', own, t', h.after_reads h₁₂⟩
        · intro err s₃ h hw hb
          exact (h hw hb).after_reads hold h₁₂
    · intro err s₂ h hw _
      obtain ⟨h₂, hfail⟩ := h hw
      exact InsertFailed.of_io hold (h₁.trans h₂) (hfail.trans h₁)

/-- `insert_extent` never calls itself: only a full root leaf makes it, and room was made. -/
theorem wp_insertExtent (calls : ℕ)
    (hcnt : inodeRef.blocksCnt ≤ pblockLimit) (hold : Holding inodeRef g base s t)
    (hnew : Fresh inodeRef new) (hready : LeafReady s.bytes t (first new)) :
    wp (insertExtent inodeRef (calls + 1) new.firstBlock new)
      (fun _ s' => ∃ (d' : ℕ) (own : Multiset ℕ) (t' : SepTree Ext4Extent d'),
        Put inodeRef g base s s' t new own t')
      (fun err s' => WritesSucceed inodeRef → Belongs inodeRef new t.items →
        InsertFailed inodeRef g base s s' t new err) s :=
  wp_insertExtentBody hcnt hold hnew hready

end Body

end Lemmas

end EspLwext4
