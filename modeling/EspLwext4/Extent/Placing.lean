import EspLwext4.Extent.Content

/-!
# A new extent in a leaf

`insert_extent` rewrites one leaf: the new extent is merged into an entry or gets a slot
of its own, and from the first slot on the separators above it are renamed. The tree then
passes all checks; its keys bound what is below them when none of them lies inside the
new extent.
-/

namespace EspLwext4

open Prog Bytes Ranged

variable (inodeRef : InodeRef) (g : Grade)

/-- The entries `es` of a leaf become `es'` with `new` among them. With `front`, it is the
first of them. -/
structure LeafEdit {d : ℕ} (new : Ext4Extent) (c : Ctx Ext4Extent 0 d) (es es' : List Ext4Extent)
    (front : Bool) : Prop where
  inserted : Inserted Merges new es es'
  nonempty : es' ≠ []
  old : c.length = 0 ∨ es ≠ []
  first_le : front = true → ∀ x ∈ es, first new ≤ first x
  head : front = true → es'.head?.map first = some (first new)
  le_first : front = false → c.length = 0 ∨ ∃ x ∈ es, first x ≤ first new
  same_head : front = false → c.length = 0 ∨ es'.head?.map first = es.head?.map first

/-- The header `h` can stand on the leaf `b`. -/
structure LeafHeader (b : ℕ) (h : Ext4ExtentHeader) : Prop where
  headerOk : HeaderOk inodeRef (Place.of b) h
  depth : h.depth = 0
  declares : g.Declares inodeRef b h.maxEntriesCount

/-- `new` was put into the tree: `t'` in `s'`, with the blocks `own` as further nodes. -/
structure Placed (base : Multiset ℕ) (s s' : St) {d d' : ℕ} (t : SepTree Ext4Extent d)
    (new : Ext4Extent) (own : Multiset ℕ) (t' : SepTree Ext4Extent d') : Prop where
  rep : Rep inodeRef g s'.bytes t'
  spent : Spent base s s' own
  addrs : t'.addrs = own + t.addrs
  items : Inserted Merges new t.items t'.items
  fit : TreeFit inodeRef g t'
  sorted : t.Undivided new → t'.marks.Pairwise (· ≤ ·)
  exact : t.Exact → t'.Exact
  strays : ∀ v e, first new ≤ v → v < stop new → t.seek v ≠ t.seek (first new) →
    t'.seek v = some e → e ∈ t.items

/-- `new` was put into a leaf, wherever it lies. If there is a place for it among the others it
is there, and if not the checks do not accept the extents any more. -/
structure Put (base : Multiset ℕ) (s s' : St) {d d' : ℕ} (t : SepTree Ext4Extent d)
    (new : Ext4Extent) (own : Multiset ℕ) (t' : SepTree Ext4Extent d') : Prop where
  rep : Rep inodeRef g s'.bytes t'
  spent : Spent base s s' own
  addr : t'.addr = 0
  placed : Belongs inodeRef new t.items → Placed inodeRef g base s s' t new own t'
  belongs : (∀ e ∈ t'.items, extentInRange inodeRef e = true) → Apart t'.items →
    Belongs inodeRef new t.items

/-- The leaf was rewritten with `new` in it, and then a separator above could not be. -/
structure Misplaced (base : Multiset ℕ) (s s' : St) {d d' : ℕ} (t : SepTree Ext4Extent d)
    (new : Ext4Extent) (own : Multiset ℕ) (t' : SepTree Ext4Extent d') : Prop where
  rep : Rep inodeRef g s'.bytes t'
  spent : Spent base s s' own
  addr : t'.addr = 0
  addrs : t'.addrs = own + t.addrs
  items : Inserted Merges new t.items t'.items

section Lemmas

variable {inodeRef g} {base own : Multiset ℕ} {s s₁ s' : St} {d d' b : ℕ} {front : Bool}
variable {t : SepTree Ext4Extent d} {c : Ctx Ext4Extent 0 d} {es es' l r : List Ext4Extent}
variable {new x z : Ext4Extent}

/-! ## The edited tree -/

theorem Ctx.eq_nil_of_length {e : ℕ} {c : Ctx Ext4Extent d e} (h : c.length = 0) :
    c.pre = [] ∧ c.itemsRight = [] := by
  cases c with
  | nil => exact ⟨rfl, rfl⟩
  | cons f c => exact absurd h (Nat.succ_ne_zero _)

theorem Ctx.itemsLeft_of_length {e : ℕ} {c : Ctx Ext4Extent d e} (h : c.length = 0) :
    c.itemsLeft = [] := by
  cases c with
  | nil => rfl
  | cons f c => exact absurd h (Nat.succ_ne_zero _)

theorem Ctx.post_of_length {e : ℕ} {c : Ctx Ext4Extent d e} (h : c.length = 0) : c.post = [] := by
  cases c with
  | nil => rfl
  | cons f c => exact absurd h (Nat.succ_ne_zero _)

theorem TreeOk.sorted_post (ok : TreeOk inodeRef g t) (hplug : c.plug (.leaf b es) = t) :
    c.post.Pairwise (· ≤ ·) := by
  have h := ok.sorted
  rw [← hplug, Ctx.marks_plug, List.pairwise_append] at h
  exact h.2.1

/-- Around the leaf that a search for the new extent ends in, it lies apart. -/
theorem TreeOk.insert_bounds (ok : TreeOk inodeRef g t) (hplug : c.plug (.leaf b es) = t)
    (hchosen : c.Chosen (first new)) (hnew : Insertable inodeRef new t.items) :
    (∀ e ∈ c.itemsLeft, stop e ≤ first new) ∧ ∀ e ∈ c.itemsRight, stop new ≤ first e := by
  have hadmits := hchosen.admits (ok.sorted_post hplug)
  have hmarks := ok.sorted
  have hmem {e : Ext4Extent} : e ∈ c.itemsLeft ++ es ++ c.itemsRight → e ∈ t.items := by
    rw [← hplug, Ctx.items_plug]
    exact id
  rw [← hplug, Ctx.marks_plug, List.pairwise_append, List.pairwise_append] at hmarks
  constructor
  · intro e he
    exact hadmits.kept_le hmarks.1.1 _ (Ctx.bounds_itemsLeft he).2
  · intro e he
    have het : e ∈ t.items := hmem (List.mem_append_right _ he)
    have hlt := hadmits.lt_post _ (Ctx.bounds_itemsRight he).1
    exact hnew.le_first het (Nat.lt_trans hlt (first_lt_stop (ok.inRange e het)))

/-- The bounds of the edited entries are old ones or those of the new extent. -/
theorem LeafEdit.bounds (h : LeafEdit new c es es' front) :
    ∀ m ∈ (SepTree.leaf b es').marks, m ∈ (SepTree.leaf b es).marks ∨ m = first new ∨ m = stop new := by
  have hbounds : ∀ e ∈ es', (first e = first new ∨ ∃ x ∈ es, first e = first x) ∧
      (stop e = stop new ∨ ∃ x ∈ es, stop e = stop x) := by
    refine h.inserted.forall (fun x y z hm hx hy => ?_) ⟨Or.inl rfl, Or.inl rfl⟩ fun e he =>
      ⟨Or.inr ⟨e, he, rfl⟩, Or.inr ⟨e, he, rfl⟩⟩
    rw [hm.joins.start, hm.joins.finish]
    exact ⟨hx.1, hy.2⟩
  have hmark {y : Ext4Extent} (hy : y ∈ es) :
      first y ∈ (SepTree.leaf b es).marks ∧ stop y ∈ (SepTree.leaf b es).marks :=
    ⟨List.mem_flatMap.mpr ⟨y, hy, by simp⟩, List.mem_flatMap.mpr ⟨y, hy, by simp⟩⟩
  intro m hm
  obtain ⟨e, he, hm⟩ := List.mem_flatMap.mp hm
  obtain ⟨hfirst, hstop⟩ := hbounds e he
  simp only [List.mem_cons, List.not_mem_nil, or_false] at hm
  rcases hm with rfl | rfl
  · rcases hfirst with heq | ⟨y, hy, heq⟩
    · exact Or.inr (Or.inl heq)
    · exact Or.inl (heq ▸ (hmark hy).1)
  · rcases hstop with heq | ⟨y, hy, heq⟩
    · exact Or.inr (Or.inr heq)
    · exact Or.inl (heq ▸ (hmark hy).2)

section Edit

variable (h : LeafEdit new c es es' front) (ok : TreeOk inodeRef g t)
  (hplug : c.plug (.leaf b es) = t) (hchosen : c.Chosen (first new))
  (hnew : Insertable inodeRef new t.items)

include h ok hplug hchosen hnew

theorem LeafEdit.items : Inserted Merges new t.items
    ((c.rekeyIf front (first new)).plug (.leaf b es')).items := by
  obtain ⟨hl, hr⟩ := ok.insert_bounds hplug hchosen hnew
  rw [← hplug, Ctx.items_plug, Ctx.items_plug, Ctx.itemsLeft_rekeyIf, Ctx.itemsRight_rekeyIf]
  exact h.inserted.within hl hr

theorem LeafEdit.fit : TreeFit inodeRef g ((c.rekeyIf front (first new)).plug (.leaf b es')) := by
  have hitems := h.items ok hplug hchosen hnew
  have hadmits := hchosen.admits (ok.sorted_post hplug)
  have haddrs : ((c.rekeyIf front (first new)).plug (.leaf b es')).addrs = t.addrs := by
    rw [← hplug, Ctx.addrs_plug, Ctx.addrs_plug, Ctx.addrs_rekeyIf]
    rfl
  refine ⟨?_, ?_, ?_, ?_, ?_, ?_, ?_⟩
  · have haddr := ok.addr
    rw [← hplug, Ctx.addr_plug] at haddr
    rw [Ctx.addr_plug, Ctx.rootAddr_rekeyIf]
    exact haddr
  · rw [haddrs]
    exact ok.nodup
  · rw [haddrs]
    exact ok.inside
  · obtain ⟨-, hc⟩ := (Ctx.all_plug c _).mp (hplug ▸ ok.ordered)
    refine (Ctx.all_plug _ _).mpr ⟨trivial, ?_⟩
    rcases front with _ | _
    · exact Ctx.around_ordered _ _ hc
    · exact Ctx.around_ordered_rekey hc hadmits
  · refine ok.bushy.imp id fun hb => ?_
    obtain ⟨-, hc⟩ := (Ctx.all_plug c _).mp (hplug ▸ hb)
    refine (Ctx.all_plug _ _).mpr ⟨Grade.holds_of_ne_nil h.nonempty, ?_⟩
    rcases front with _ | _
    · exact Ctx.around_bushy _ _ hc
    · exact Ctx.around_bushy_rekey hc
  · exact hnew.inserted_inRange hitems ok.inRange
  · exact hnew.inserted_apart hitems (SepTree.items_sorted ok.sorted)

omit h hchosen in
/-- In the leaf all blocks of the new extent belong to one entry. -/
theorem pick_alike_of_insertable {v : ℕ} (hle : first new ≤ v) (hlt : v < stop new) :
    pick first v es = pick first (first new) es := by
  refine pick_alike fun y hy => ?_
  have hy : y ∈ t.items := by
    rw [← hplug, Ctx.items_plug]
    exact List.mem_append_left _ (List.mem_append_right _ (List.mem_of_mem_tail hy))
  have hpos := first_lt_stop (ok.inRange y hy)
  rcases hnew.apart y hy with hbefore | hbehind <;> omega

omit h in
/-- A search for one of its blocks that ends elsewhere ends behind the leaf. -/
theorem not_chosen_of_stray {v : ℕ} (hle : first new ≤ v) (hlt : v < stop new)
    (hstray : t.seek v ≠ t.seek (first new)) : ¬ c.Chosen v := by
  intro hv
  have hall : t.All SepTree.SortedAt := ok.fit.imp fun _ _ hu => hu.sortedAt
  obtain ⟨-, hc⟩ := (Ctx.all_plug c _).mp (hplug ▸ hall)
  rw [← hplug, Ctx.seek_plug hv hc, Ctx.seek_plug hchosen hc] at hstray
  exact hstray (pick_alike_of_insertable ok hplug hnew hle hlt)

theorem LeafEdit.strays {v : ℕ} {e : Ext4Extent} (hle : first new ≤ v) (hlt : v < stop new)
    (hstray : t.seek v ≠ t.seek (first new))
    (he : ((c.rekeyIf front (first new)).plug (.leaf b es')).seek v = some e) : e ∈ t.items := by
  have hall := (h.fit ok hplug hchosen hnew).fit.imp fun _ _ hu => hu.sortedAt
  obtain ⟨-, hc⟩ := (Ctx.all_plug _ _).mp hall
  rcases (hchosen.rekeyIf front).later hle with hv | hright
  · exact absurd (hchosen.of_rekeyIf front hle hv)
      (not_chosen_of_stray ok hplug hchosen hnew hle hlt hstray)
  · have hmem := hright _ e hc he
    rw [Ctx.itemsRight_rekeyIf] at hmem
    rw [← hplug, Ctx.items_plug]
    exact List.mem_append_right _ hmem

omit h hnew in
/-- Where the searches for all blocks of the new extent end at one entry of the leaf, what lies
behind the leaf lies behind the new extent. -/
theorem stop_le_post (hne : c.length = 0 ∨ es ≠ []) (hkeys : t.Undivided new) {m : ℕ}
    (hm : m ∈ c.post) : stop new ≤ m := by
  have hadmits := hchosen.admits (ok.sorted_post hplug)
  have hlt : first new < m := hadmits.lt_post m hm
  have hall : t.All SepTree.SortedAt := ok.fit.imp fun _ _ hu => hu.sortedAt
  obtain ⟨-, hc⟩ := (Ctx.all_plug c _).mp (hplug ▸ hall)
  by_contra hinside
  have hseek : t.seek m = t.seek (first new) := hkeys m hlt (Nat.not_le.mp hinside)
  rcases hchosen.later (Nat.le_of_lt hlt) with hm' | hright
  · exact Nat.lt_irrefl m ((hm'.admits (ok.sorted_post hplug)).lt_post m hm)
  · rcases hne with h0 | hne
    · rw [Ctx.post_of_length h0] at hm
      cases hm
    · obtain ⟨x, es, rfl⟩ := List.exists_cons_of_ne_nil hne
      obtain ⟨e, he⟩ : ∃ e, t.seek (first new) = some e := by
        rw [← hplug, Ctx.seek_plug hchosen hc]
        exact ⟨_, rfl⟩
      have hleaf : e ∈ x :: es := by
        rw [← hplug, Ctx.seek_plug hchosen hc] at he
        exact pick_mem he
      have hbehind : e ∈ c.itemsRight := hright (.leaf b (x :: es)) e hc (by rw [hplug, hseek, he])
      -- it would lie behind itself
      have happart : Apart t.items := ok.treeFit.apart
      rw [← hplug, Ctx.items_plug] at happart
      have hself : stop e ≤ first e := (List.pairwise_append.mp happart).2.2 e
        (List.mem_append_right _ hleaf) e hbehind
      have hpos := first_lt_stop (ok.inRange e (SepTree.seek_mem he))
      omega

/-- Where the searches for all blocks of the new extent ended alike, the keys bound what is
below them. -/
theorem LeafEdit.sorted (hkeys : t.Undivided new) :
    ((c.rekeyIf front (first new)).plug (.leaf b es')).marks.Pairwise (· ≤ ·) := by
  have hadmits := hchosen.admits (ok.sorted_post hplug)
  have hpos := hnew.pos
  have hsorted : (c.plug (.leaf b es)).marks.Pairwise (· ≤ ·) := hplug ▸ ok.sorted
  have hmarks := hsorted
  rw [Ctx.marks_plug, List.pairwise_append, List.pairwise_append] at hmarks
  obtain ⟨⟨-, hleaf, hlo⟩, -, hhi⟩ := hmarks
  have hpost {m : ℕ} (hm : m ∈ c.post) : stop new ≤ m :=
    stop_le_post ok hplug hchosen h.old hkeys hm
  have hes' : (SepTree.leaf b es').marks.Pairwise (· ≤ ·) := by
    have hfit := ((Ctx.all_plug _ (.leaf b es')).mp (h.fit ok hplug hchosen hnew).fit).1
    obtain ⟨hrange, hapart⟩ := SepTree.all_leaf.mp hfit
    rw [SepTree.marks_leaf, List.pairwise_flatMap]
    refine ⟨fun e he => ?_, hapart.imp_of_mem fun {x y} hx hy hxy m hm m' hm' => ?_⟩
    · exact List.pairwise_pair.mpr (Nat.le_of_lt (first_lt_stop (hrange e he)))
    · have hxy : stop x ≤ first y := hxy
      have hx' := first_lt_stop (hrange x hx)
      have hy' := first_lt_stop (hrange y hy)
      simp only [List.mem_cons, List.not_mem_nil, or_false] at hm hm'
      omega
  have hhi' : ∀ m ∈ (SepTree.leaf b es').marks, ∀ m' ∈ c.post, m ≤ m' := by
    intro m hm m' hm'
    rcases h.bounds m hm with hold | rfl | rfl
    · exact hhi m (List.mem_append_right _ hold) m' hm'
    · exact Nat.le_of_lt (hadmits.lt_post m' hm')
    · exact hpost hm'
  rcases front with _ | _
  · refine Ctx.sorted_plug hsorted hes' (fun m (hm : m ∈ c.pre) m' hm' => ?_) hhi'
    rcases h.le_first rfl with h0 | ⟨y, hy, hle⟩
    · rw [(Ctx.eq_nil_of_length h0).1] at hm
      cases hm
    · have hmy : m ≤ first y := hlo m hm _ (List.mem_flatMap.mpr ⟨y, hy, by simp⟩)
      rcases h.bounds m' hm' with hold | rfl | rfl
      · exact hlo m hm m' hold
      · exact Nat.le_trans hmy hle
      · exact Nat.le_trans hmy (Nat.le_trans hle (Nat.le_of_lt hpos))
  · refine Ctx.sorted_rekey hsorted hadmits hes' (fun m hm => ?_) hhi'
    rcases h.bounds m hm with hold | rfl | rfl
    · obtain ⟨y, hy, hm⟩ := List.mem_flatMap.mp hold
      have hle := h.first_le rfl y hy
      have hy' : first y ≤ stop y := Nat.le_add_right _ _
      simp only [List.mem_cons, List.not_mem_nil, or_false] at hm
      omega
    · exact Nat.le_refl _
    · exact Nat.le_of_lt hpos

omit ok hchosen hnew in
theorem LeafEdit.exact (hex : t.Exact) :
    ((c.rekeyIf front (first new)).plug (.leaf b es')).Exact := by
  obtain ⟨-, hc⟩ := (Ctx.all_plug c _).mp (hplug ▸ hex)
  refine (Ctx.all_plug _ _).mpr ⟨trivial, ?_⟩
  rcases front with _ | _
  · rcases h.same_head rfl with h0 | hhead
    · cases c with
      | nil => trivial
      | cons f c => exact absurd h0 (Nat.succ_ne_zero _)
    · refine Ctx.around_exact _ _ ?_ hc
      rw [SepTree.keys_leaf, SepTree.keys_leaf, List.head?_map, List.head?_map]
      exact hhead.symm
  · refine Ctx.around_exact_rekey hc ?_
    rw [SepTree.keys_leaf, List.head?_map]
    exact h.head rfl

end Edit

/-! ## Which edits there are -/

theorem LeafEdit.merge_left (hm : Merges x new z) (hes : es = l ++ x :: r)
    (hl : ∀ e ∈ l, stop e ≤ first new) (hr : ∀ e ∈ r, stop new ≤ first e) :
    LeafEdit new c es (l ++ z :: r) false := by
  have hx : stop x ≤ first new := Nat.le_of_eq hm.touch
  refine ⟨⟨l ++ [x], r, by rw [hes]; simp, ?_, hr, Or.inr ⟨l, r, x, new, z, hm, by simp, rfl⟩⟩,
    by simp, Or.inr (by simp [hes]), fun h => (by cases h), fun h => (by cases h),
    fun _ => Or.inr ⟨x, ?_, ?_⟩, fun _ => Or.inr ?_⟩
  · intro e he
    rcases List.mem_append.mp he with he | he
    · exact hl e he
    · rw [List.mem_singleton.mp he]
      exact hx
  · rw [hes]
    simp
  · exact Nat.le_trans (Nat.le_of_lt hm.pos) hx
  · rw [hes]
    cases l with
    | nil => exact congrArg some hm.joins.start
    | cons y l => rfl

theorem LeafEdit.merge_right (hm : Merges new x z) (hes : es = l ++ x :: r) (hne : l ≠ [])
    (hl : ∀ e ∈ l, stop e ≤ first new) (hr : ∀ e ∈ r, stop new ≤ first e) :
    LeafEdit new c es (l ++ z :: r) false := by
  obtain ⟨y, l', rfl⟩ := List.exists_cons_of_ne_nil hne
  refine ⟨⟨y :: l', x :: r, hes, hl, ?_, Or.inr ⟨y :: l', r, new, x, z, hm, rfl, rfl⟩⟩,
    by simp, Or.inr (by simp [hes]), fun h => (by cases h), fun h => (by cases h),
    fun _ => Or.inr ⟨y, ?_, ?_⟩, fun _ => Or.inr ?_⟩
  · intro e he
    rcases List.mem_cons.mp he with rfl | he
    · exact Nat.le_of_eq hm.touch
    · exact hr e he
  · rw [hes]
    simp
  · exact Nat.le_trans (Nat.le_add_right _ _) (hl y (by simp))
  · rw [hes]
    rfl

/-- A slot of its own behind the first entry, or in an empty root. -/
theorem LeafEdit.own_slot (hes : es = l ++ r) (hne : c.length = 0 ∨ l ≠ [])
    (hl : ∀ e ∈ l, stop e ≤ first new) (hr : ∀ e ∈ r, stop new ≤ first e) :
    LeafEdit new c es (l ++ new :: r) false := by
  refine ⟨⟨l, r, hes, hl, hr, Or.inl rfl⟩, by simp,
    hne.imp id fun hl' => by simp [hes, hl'], fun h => (by cases h), fun h => (by cases h),
    fun _ => hne.imp id fun hl' => ?_, fun _ => hne.imp id fun hl' => ?_⟩
  · obtain ⟨y, l', rfl⟩ := List.exists_cons_of_ne_nil hl'
    refine ⟨y, by rw [hes]; simp, Nat.le_trans (Nat.le_add_right _ _) (hl y (by simp))⟩
  · obtain ⟨y, l', rfl⟩ := List.exists_cons_of_ne_nil hl'
    rw [hes]
    rfl

/-- The first slot. -/
theorem LeafEdit.first_slot (hne : es ≠ []) (hr : ∀ e ∈ es, stop new ≤ first e)
    (hpos : first new < stop new) : LeafEdit new c es (new :: es) true :=
  ⟨⟨[], es, rfl, fun _ he => (by cases he), hr, Or.inl rfl⟩, by simp, Or.inr hne,
    fun _ x hx => Nat.le_trans (Nat.le_of_lt hpos) (hr x hx), fun _ => rfl, fun h => (by cases h),
    fun h => (by cases h)⟩

/-- Nothing is above the root. -/
theorem LeafEdit.of_root (h : LeafEdit new c es es' front) (h0 : c.length = 0) :
    LeafEdit new c es es' false :=
  ⟨h.inserted, h.nonempty, h.old, fun h => (by cases h), fun h => (by cases h), fun _ => Or.inl h0,
    fun _ => Or.inl h0⟩

/-! ## The rewritten leaf in its tree -/

section Leaf

variable {path : ExtentSearchPath} {leaf : ExtentPathNode} {h : Ext4ExtentHeader} {lblock : ℕ}
variable {err : Errno}

theorem Located.leafRep (hloc : Located inodeRef s.bytes t lblock path c b es leaf)
    (hrep : Rep inodeRef g s.bytes t) : RepAt inodeRef g s.bytes (.leaf b es) :=
  ((Ctx.all_plug c _).mp (hloc.plug ▸ hrep)).1

theorem RepAt.leafHeader (hleaf : RepAt inodeRef g s.bytes (.leaf b es)) :
    LeafHeader inodeRef g b (s.bytes.header (Place.of b)) :=
  ⟨hleaf.standing.headerOk, hleaf.standing.depth, hleaf.declares⟩

theorem LeafHeader.withCount {n : ℕ} (hh : LeafHeader inodeRef g b h) (hn : n ≤ h.maxEntriesCount) :
    LeafHeader inodeRef g b (h.withCount n) :=
  ⟨hh.headerOk.withCount hn, hh.depth, hh.declares⟩

theorem Located.not_outside (hloc : Located inodeRef s.bytes t lblock path c b es leaf)
    (hnodup : t.addrs.Nodup) : c.addrs.Nodup ∧ b ∉ c.addrs := by
  obtain ⟨hc, -, hout⟩ := Ctx.nodup_plug (hloc.plug ▸ hnodup)
  exact ⟨hc, hout b (by simp)⟩

/-- A leaf below the root is a block, the root is none. -/
theorem Located.addr_eq_zero_iff (hloc : Located inodeRef s.bytes t lblock path c b es leaf)
    (ok : TreeOk inodeRef g t) : b = 0 ↔ path.depth = 0 := by
  rw [hloc.depth]
  have hplug := hloc.plug
  subst hplug
  cases c with
  | nil => exact ⟨fun _ => rfl, fun _ => ok.addr⟩
  | cons f c => exact ⟨fun h0 => absurd h0 (Ctx.hole_ne_zero ok), fun h0 => absurd h0 (Nat.succ_ne_zero _)⟩

/-- Once the leaf is rewritten, it and the nodes above it are on the disk. -/
theorem Located.rep_rewritten (hloc : Located inodeRef s.bytes t lblock path c b es leaf)
    (hrep : Rep inodeRef g s.bytes t) (hnodup : t.addrs.Nodup)
    (hr : Rewrote inodeRef s s' b h es') (hh : LeafHeader inodeRef g b h) :
    RepAt inodeRef g s'.bytes (.leaf b es') ∧ c.Around (RepAt inodeRef g s'.bytes) (.leaf b es') := by
  obtain ⟨-, hc⟩ := (Ctx.all_plug c _).mp (hloc.plug ▸ hrep)
  refine ⟨Rewrote.repAt (u := .leaf b es') hr hh.headerOk hh.depth hh.declares rfl, ?_⟩
  exact hr.around hc (hloc.not_outside hnodup).2 rfl

/-- A rewritten leaf whose first key stays the one above it. -/
theorem placed_of_rewrote (hloc : Located inodeRef s.bytes t (first new) path c b es leaf)
    (hrep : Rep inodeRef g s.bytes t) (ok : TreeOk inodeRef g t)
    (hnew : Insertable inodeRef new t.items) (hedit : LeafEdit new c es es' false)
    (hr : Rewrote inodeRef s s' b h es') (hh : LeafHeader inodeRef g b h) :
    Placed inodeRef g base s s' t new 0 (c.plug (.leaf b es')) := by
  refine ⟨(Ctx.all_plug c _).mpr (hloc.rep_rewritten hrep ok.nodup hr hh), .of_quiet base hr.quiet,
    ?_, hedit.items ok hloc.plug hloc.chosen hnew, hedit.fit ok hloc.plug hloc.chosen hnew,
    hedit.sorted ok hloc.plug hloc.chosen hnew, hedit.exact hloc.plug,
    fun _ _ => hedit.strays ok hloc.plug hloc.chosen hnew⟩
  rw [zero_add, ← hloc.plug, Ctx.addrs_plug, Ctx.addrs_plug]
  rfl

/-- The same with the keys above renamed. -/
theorem placed_of_rekeyed (hloc : Located inodeRef s.bytes t (first new) path c b es leaf)
    (ok : TreeOk inodeRef g t) (hnew : Insertable inodeRef new t.items)
    (hedit : LeafEdit new c es es' true) (hquiet : Quiet s s')
    (hleaf : RepAt inodeRef g s'.bytes (.leaf b es'))
    (hc : (c.rekey (first new)).Around (RepAt inodeRef g s'.bytes) (.leaf b es')) :
    Placed inodeRef g base s s' t new 0 ((c.rekey (first new)).plug (.leaf b es')) := by
  refine ⟨(Ctx.all_plug _ _).mpr ⟨hleaf, hc⟩, .of_quiet base hquiet, ?_,
    hedit.items ok hloc.plug hloc.chosen hnew, hedit.fit ok hloc.plug hloc.chosen hnew,
    hedit.sorted ok hloc.plug hloc.chosen hnew, hedit.exact hloc.plug,
    fun _ _ => hedit.strays ok hloc.plug hloc.chosen hnew⟩
  rw [zero_add, ← hloc.plug, Ctx.addrs_plug, Ctx.addrs_plug, Ctx.addrs_rekey]
  rfl

theorem Located.items (hloc : Located inodeRef s.bytes t lblock path c b es leaf) :
    t.items = c.itemsLeft ++ es ++ c.itemsRight := by
  rw [← hloc.plug, Ctx.items_plug]
  rfl

theorem Located.rootAddr (hloc : Located inodeRef s.bytes t lblock path c b es leaf)
    (ok : TreeOk inodeRef g t) : c.rootAddr b = 0 := by
  have haddr := ok.addr
  rwa [← hloc.plug, Ctx.addr_plug] at haddr

/-- A rewritten leaf whose first key stays the one above it, wherever the new extent lies. -/
theorem put_of_rewrote (hloc : Located inodeRef s.bytes t (first new) path c b es leaf)
    (hrep : Rep inodeRef g s.bytes t) (ok : TreeOk inodeRef g t)
    (hedit : Belongs inodeRef new t.items → LeafEdit new c es es' false)
    (hr : Rewrote inodeRef s s' b h es') (hh : LeafHeader inodeRef g b h)
    (hbelongs : (∀ e ∈ c.itemsLeft ++ es' ++ c.itemsRight, extentInRange inodeRef e = true) →
      Apart (c.itemsLeft ++ es' ++ c.itemsRight) → Belongs inodeRef new t.items) :
    Put inodeRef g base s s' t new 0 (c.plug (.leaf b es')) := by
  refine ⟨(Ctx.all_plug c _).mpr (hloc.rep_rewritten hrep ok.nodup hr hh), .of_quiet base hr.quiet,
    ?_, fun hb => placed_of_rewrote hloc hrep ok hb.insertable (hedit hb) hr hh, ?_⟩
  · rw [Ctx.addr_plug]
    exact hloc.rootAddr ok
  · rw [Ctx.items_plug]
    exact hbelongs

/-- The same with the keys above renamed. -/
theorem put_of_rekeyed (hloc : Located inodeRef s.bytes t (first new) path c b es leaf)
    (ok : TreeOk inodeRef g t) (hedit : Belongs inodeRef new t.items → LeafEdit new c es es' true)
    (hquiet : Quiet s s') (hleaf : RepAt inodeRef g s'.bytes (.leaf b es'))
    (hc : (c.rekey (first new)).Around (RepAt inodeRef g s'.bytes) (.leaf b es'))
    (hbelongs : (∀ e ∈ c.itemsLeft ++ es' ++ c.itemsRight, extentInRange inodeRef e = true) →
      Apart (c.itemsLeft ++ es' ++ c.itemsRight) → Belongs inodeRef new t.items) :
    Put inodeRef g base s s' t new 0 ((c.rekey (first new)).plug (.leaf b es')) := by
  refine ⟨(Ctx.all_plug _ _).mpr ⟨hleaf, hc⟩, .of_quiet base hquiet, ?_,
    fun hb => placed_of_rekeyed hloc ok hb.insertable (hedit hb) hquiet hleaf hc, ?_⟩
  · show ((c.rekeyIf true (first new)).plug (.leaf b es')).addr = 0
    rw [Ctx.addr_plug, Ctx.rootAddr_rekeyIf]
    exact hloc.rootAddr ok
  · show (∀ e ∈ ((c.rekeyIf true (first new)).plug (.leaf b es')).items, _) → Apart
      ((c.rekeyIf true (first new)).plug (.leaf b es')).items → _
    rw [Ctx.items_plug, Ctx.itemsLeft_rekeyIf, Ctx.itemsRight_rekeyIf]
    exact hbelongs

/-- Some of the keys above a rewritten leaf. -/
theorem misplaced_of_rewrote {c' : Ctx Ext4Extent 0 d}
    (hloc : Located inodeRef s.bytes t (first new) path c b es leaf) (ok : TreeOk inodeRef g t)
    (hnew : Insertable inodeRef new t.items) (hedit : LeafEdit new c es es' front)
    (hquiet : Quiet s s') (hleaf : RepAt inodeRef g s'.bytes (.leaf b es'))
    (hsame : SameNodes c c') (hc : c'.Around (RepAt inodeRef g s'.bytes) (.leaf b es')) :
    Misplaced inodeRef g base s s' t new 0 (c'.plug (.leaf b es')) := by
  have hitems := hedit.items ok hloc.plug hloc.chosen hnew
  rw [Ctx.items_plug, Ctx.itemsLeft_rekeyIf, Ctx.itemsRight_rekeyIf, ← hsame.itemsLeft,
    ← hsame.itemsRight, ← Ctx.items_plug] at hitems
  refine ⟨(Ctx.all_plug _ _).mpr ⟨hleaf, hc⟩, .of_quiet base hquiet, ?_, ?_, hitems⟩
  · have haddr := ok.addr
    rw [← hloc.plug, Ctx.addr_plug] at haddr
    rw [Ctx.addr_plug, hsame.rootAddr]
    exact haddr
  · rw [zero_add, ← hloc.plug, Ctx.addrs_plug, Ctx.addrs_plug, hsame.addrs]
    rfl

/-! ## Merging into an entry -/

/-- `merge_extent` writes a leaf that declares more than four entries; what it leaves to
its callers is the root. -/
theorem wp_mergeExtent {leftExt rightExt : Ext4Extent} {pos : ℕ}
    (hleaf : RepAt inodeRef g s.bytes (.leaf b es)) (hat : LeafAt s.bytes lblock leaf b es)
    (hnode : path.path[path.depth]? = some leaf) (hes : es = l ++ x :: r) (hpos : pos = l.length)
    (hz : (mergedExtent leftExt rightExt).Fits) (hmax : b ≠ 0 → 4 < leaf.header.maxEntriesCount) :
    wp (mergeExtent inodeRef path leftExt rightExt pos)
      (fun merged s₁ => wp (storeMergedInRoot inodeRef leaf pos merged)
        (fun _ s' => Rewrote inodeRef s s' b (s.bytes.header (Place.of b))
          (l ++ mergedExtent leftExt rightExt :: r)) (fun _ _ => ¬ WritesSucceed inodeRef) s₁)
      (fun err s' => WritesSucceed inodeRef →
        Reads s s' ∧ ReadFailed inodeRef s s' .mergeExtent err) s := by
  have hh : HeaderOk inodeRef (Place.of b) (s.bytes.header (Place.of b)) := hleaf.standing.headerOk
  have hslots : s.bytes.slots (Place.of b) = l ++ x :: r :=
    (show s.bytes.slots (Place.of b) = es from hleaf.entries).trans hes
  have hfits : inodeRef.Fits (Place.of b) (pos + 1) := by
    refine hh.fits.mono ?_
    rw [← Disk.length_slots, hslots, hpos, List.length_append, List.length_cons]
    omega
  unfold mergeExtent
  rw [wp_bind, wp_node]
  refine ⟨leaf, hnode, ?_⟩
  dsimp only
  rw [wp_ite]
  constructor
  · -- a block, written here
    intro hbig
    have hb : b ≠ 0 := by
      rintro rfl
      have hmax' : leaf.header.maxEntriesCount ≤ 4 := by
        rw [hat.header]
        exact hh.max
      exact absurd hbig (Nat.not_lt.mpr hmax')
    rw [Place.of_ne_zero hb] at hslots hfits
    rw [hat.pblockOfNode, wp_bind]
    refine wp_mono (wp_nodeBlockGet_reads _ _) (fun _ s₁ h₁ => ?_) fun _ _ h _ => h
    rw [wp_bind]
    have hslots₁ : s₁.bytes.slots (.block b) = l ++ x :: r := by rwa [h₁.bytes]
    refine wp_mono (wp_storeExtent_stored hslots₁ hpos hz hfits) (fun _ s₂ h₂ => ?_)
      fun _ _ h => h.elim
    rw [h₁.bytes] at h₂
    rw [wp_bind]
    rw [Place.of_ne_zero hb] at hh ⊢
    refine wp_mono (wp_finishBlock_stored hb h₁.quiet h₁.bytes h₂ hh) (fun _ s₃ h₃ => ?_)
      fun _ _ hn hw => absurd hw hn
    rw [wp_pure]
    exact (wp_whenever _ _).mpr ⟨fun h0 => absurd (hat.pblockOfNode.symm.trans h0) hb, fun _ => h₃⟩
  · -- the root
    intro hsmall
    have hb : b = 0 := by
      by_contra hb
      unfold ext4ExtentRootMaxEntries at hsmall
      exact hsmall (hmax hb)
    subst hb
    rw [wp_pure]
    refine (wp_whenever _ _).mpr ⟨fun _ => ?_, fun h0 => absurd hat.pblockOfNode h0⟩
    rw [wp_bind]
    refine wp_mono (wp_storeExtent_stored hslots hpos hz hfits) (fun _ s₂ h₂ => ?_)
      fun _ _ h => h.elim
    have hfinish := wp_finishNode_stored hat.pblockOfNode (.refl s) rfl h₂ hh
    unfold finishNode at hfinish
    rwa [if_pos hat.pblockOfNode] at hfinish

/-! ## A slot of its own -/

/-- A search for the new extent ended at an entry that starts before it: so does all on its
left, and all behind it lies behind the new one. -/
theorem cursor_bounds {e : Ext4Extent} (hnew : Insertable inodeRef new (l ++ e :: r))
    (hsorted : Apart (l ++ e :: r)) (hfirst : first e ≤ first new)
    (hlt : ∀ y ∈ r.head?, first new < first y) :
    (∀ y ∈ l, stop y ≤ first new) ∧ stop e ≤ first new ∧ ∀ y ∈ r, stop new ≤ first y := by
  obtain ⟨-, hright, hcross⟩ := List.pairwise_append.mp hsorted
  rw [List.pairwise_cons] at hright
  have hstop : stop e ≤ first new := hnew.stop_le (by simp) hfirst
  have hlen {y : Ext4Extent} : first y ≤ stop y := Nat.le_add_right _ _
  refine ⟨fun y hy => ?_, hstop, fun y hy => ?_⟩
  · exact Nat.le_trans (hcross y hy e (by simp)) (Nat.le_trans hlen hstop)
  · refine hnew.le_first (by simp [hy]) ?_
    rcases r with _ | ⟨z, r⟩
    · cases hy
    · have hz : first new < first z := hlt z rfl
      rcases List.mem_cons.mp hy with rfl | hy
      · exact Nat.lt_of_lt_of_le hz hlen
      · have hzy := (List.pairwise_cons.mp hright.2).1 y hy
        exact Nat.lt_of_lt_of_le hz (Nat.le_trans hlen (Nat.le_trans hzy hlen))

variable (inodeRef) in
/-- Where `insert_new_extent` puts the new extent. -/
theorem Cursor.newExtentPos_eq (hcursor : Cursor (first new) leaf es) (hne : es ≠ [])
    (hsorted : Apart es) :
    ∃ l r front, es = l ++ r ∧ newExtentPos leaf new = l.length ∧ (front = true ↔ l = []) ∧
      (Insertable inodeRef new es →
        ∀ c : Ctx Ext4Extent 0 d, LeafEdit new c es (l ++ new :: r) front) := by
  cases hcursor with
  | empty => exact absurd rfl hne
  | entry l e r hpos hextent hhave hle hlt =>
      have he : e ∈ l ++ e :: r := by simp
      unfold newExtentPos
      rw [hextent, hpos]
      by_cases hfront : l = [] ∧ new.firstBlock < e.firstBlock
      · obtain ⟨rfl, hbefore⟩ := hfront
        refine ⟨[], e :: r, true, rfl, if_pos ⟨hhave, rfl, hbefore⟩, by simp, fun hnew c => ?_⟩
        have hlen {y : Ext4Extent} : first y ≤ stop y := Nat.le_add_right _ _
        have hstop : stop new ≤ first e := hnew.le_first he (Nat.lt_of_lt_of_le hbefore hlen)
        refine LeafEdit.first_slot (by simp) (fun y hy => ?_) hnew.pos
        rcases List.mem_cons.mp hy with rfl | hy
        · exact hstop
        · have hey := (List.pairwise_cons.mp hsorted).1 y hy
          exact Nat.le_trans hstop (Nat.le_trans hlen hey)
      · have hfirst : first e ≤ first new := by
          rcases hle with hl | hle
          · exact Nat.not_lt.mp fun hlt => hfront ⟨hl, hlt⟩
          · exact hle
        refine ⟨l ++ [e], r, false, by simp, ?_, by simp, fun hnew c => ?_⟩
        · rw [if_neg, List.length_append, List.length_singleton]
          rintro ⟨-, h0, hbefore⟩
          exact hfront ⟨List.eq_nil_of_length_eq_zero h0, hbefore⟩
        obtain ⟨hleft, hstop, hright⟩ := cursor_bounds hnew hsorted hfirst hlt
        refine LeafEdit.own_slot (by simp) (Or.inr (by simp)) (fun y hy => ?_) hright
        rcases List.mem_append.mp hy with hy | hy
        · exact hleft y hy
        · rw [List.mem_singleton.mp hy]
          exact hstop

/-- `place_extent` on the leaf of a path that has room. -/
theorem wp_placeExtent_leaf {node : ExtentPathNode} {pos : ℕ}
    (hleaf : RepAt inodeRef g s.bytes (.leaf b es)) (hat : LeafAt s.bytes lblock leaf b es)
    (hplace : node.place = Place.of b) (hheader : node.header = leaf.header) (hes : es = l ++ r)
    (hpos : pos = l.length) (hnew : new.Fits)
    (hroom : leaf.header.entriesCount < leaf.header.maxEntriesCount) :
    ∃ h, LeafHeader inodeRef g b h ∧ wp (placeExtent inodeRef node pos new)
      (fun _ s' => Stored s (Place.of b) h (l ++ new :: r) s') (fun _ _ => False) s := by
  have hh := hleaf.leafHeader
  have hslots : s.bytes.slots (Place.of b) = l ++ r :=
    (show s.bytes.slots (Place.of b) = es from hleaf.entries).trans hes
  have hcount : node.header.entriesCount = (l ++ r).length := by rw [hheader, hat.count, hes]
  have hlt : (l ++ r).length + 1 ≤ (s.bytes.header (Place.of b)).maxEntriesCount := by
    rw [← hcount, hheader, ← hat.header]
    exact hroom
  have hmax := hh.headerOk.max_lt
  refine ⟨node.header.withCount ((l ++ r).length + 1), ?_, ?_⟩
  · rw [hheader, hat.header]
    exact hh.withCount hlt
  · refine wp_placeExtent hplace ?_ hslots hcount hpos hnew ?_ (by omega)
    · rw [hheader, hat.header]
      exact s.bytes.header_fits _
    · exact inodeRef.fits_of_le (Nat.le_trans hlt hh.headerOk.max)

/-- `insert_new_extent` on a path to a leaf with an entry and with room for one more. -/
theorem wp_insertNewExtent {reinsert : ℕ → Ext4Extent → M Unit}
    (hold : Holding inodeRef g base s t)
    (hloc : Located inodeRef s.bytes t (first new) path c b es leaf)
    (hnew : Fresh inodeRef new) (hsole : ∀ e, t.items = [e] → canMerge e new = false)
    (hne : es ≠ []) (hroom : leaf.header.entriesCount < leaf.header.maxEntriesCount) :
    wp (insertNewExtent inodeRef reinsert path new)
      (fun _ s' => ∃ t' : SepTree Ext4Extent d, Put inodeRef g base s s' t new 0 t')
      (fun err s' => WritesSucceed inodeRef → Belongs inodeRef new t.items →
        Reads s s' ∧ ReadFailed inodeRef s s' .insertNewExtent err ∨
        ∃ t' : SepTree Ext4Extent d, Misplaced inodeRef g base s s' t new 0 t' ∧
          ReadFailed inodeRef s s' .writeIndexAt err) s := by
  have hleaf := hloc.leafRep hold.rep
  have hat := hloc.leafAt
  have hmem : ∀ e ∈ es, e ∈ t.items := by
    intro e he
    rw [hloc.items]
    exact List.mem_append_left _ (List.mem_append_right _ he)
  have hsorted : Apart es := (SepTree.all_leaf.mp
    ((Ctx.all_plug c (.leaf b es)).mp (hloc.plug ▸ hold.ok.fit)).1).sorted
  obtain ⟨l, r, front, hes, hpos, hfront, hplace⟩ :=
    Cursor.newExtentPos_eq inodeRef (d := d) hat.cursor hne hsorted
  have hedit (hb : Belongs inodeRef new t.items) : LeafEdit new c es (l ++ new :: r) front :=
    hplace (hb.insertable.mono hmem) c
  have hbelongs (hin : ∀ e ∈ c.itemsLeft ++ (l ++ new :: r) ++ c.itemsRight,
      extentInRange inodeRef e = true) (hap : Apart (c.itemsLeft ++ (l ++ new :: r) ++ c.itemsRight)) :
      Belongs inodeRef new t.items := by
    have hassoc : c.itemsLeft ++ (l ++ new :: r) ++ c.itemsRight =
        (c.itemsLeft ++ l) ++ new :: (r ++ c.itemsRight) := by simp
    rw [hassoc] at hin hap
    refine hnew.belongs_own hold.ok.inRange ?_ hold.ok.treeFit.apart hsole hin hap
    rw [hloc.items, hes]
    simp
  unfold insertNewExtent
  rw [wp_bind, wp_node]
  refine ⟨leaf, hloc.leafNode, ?_⟩
  rw [wp_ite]
  constructor
  · -- the root is the leaf
    intro hdepth
    have hb : b = 0 := (hloc.addr_eq_zero_iff hold.ok).mpr hdepth
    have hc0 : c.length = 0 := by rw [← hloc.depth]; exact hdepth
    rw [wp_ite]
    refine ⟨fun h0 => ?_, fun _ => ?_⟩
    · rw [hat.count] at h0
      exact absurd (List.eq_nil_of_length_eq_zero h0) hne
    rw [wp_ite]
    refine ⟨fun hfull => absurd hroom (by omega), fun _ => ?_⟩
    obtain ⟨h, hh, hplace⟩ := wp_placeExtent_leaf hleaf
      hat (show ExtentPathNode.place { leaf with pblockOfNode := 0 } = _ by rw [hb]; rfl) rfl hes rfl hnew.fits hroom
    have hpos' : newExtentPos leaf new = l.length := hpos
    rw [wp_bind, hpos']
    refine wp_mono hplace (fun _ s₁ h₁ => ?_) fun _ _ h => h.elim
    have hfinish := wp_finishNode_stored hat.pblockOfNode (.refl s) rfl h₁ hh.headerOk
    unfold finishNode at hfinish
    rw [if_pos (hat.pblockOfNode.trans hb)] at hfinish
    refine wp_mono hfinish (fun _ s₂ h₂ => ?_) fun _ _ hn hw => absurd hw hn
    exact ⟨_, put_of_rewrote hloc hold.rep hold.ok (fun hb => (hedit hb).of_root hc0) h₂ hh hbelongs⟩
  · intro hdepth
    have hb : b ≠ 0 := fun h0 => hdepth ((hloc.addr_eq_zero_iff hold.ok).mp h0)
    obtain ⟨hcnodup, hbc⟩ := hloc.not_outside hold.ok.nodup
    rw [hat.pblockOfNode, wp_bind]
    refine wp_mono (wp_nodeBlockGet_reads _ _) (fun _ s₁ h₁ => ?_) fun _ _ h _ _ => Or.inl h
    have hleaf₁ : RepAt inodeRef g s₁.bytes (.leaf b es) := by rw [h₁.bytes]; exact hleaf
    have hat₁ : LeafAt s₁.bytes (first new) leaf b es := by rw [h₁.bytes]; exact hat
    obtain ⟨h, hh, hplace⟩ := wp_placeExtent_leaf hleaf₁ hat₁
      (by rw [ExtentPathNode.place, hat.pblockOfNode]) rfl hes rfl hnew.fits hroom
    rw [wp_bind, hpos]
    refine wp_mono hplace (fun _ s₂ h₂ => ?_) fun _ _ h => h.elim
    rw [Place.of_ne_zero hb] at h₂
    have hok := hh.headerOk
    rw [Place.of_ne_zero hb] at hok
    rw [wp_bind]
    refine wp_mono (wp_finishBlock_stored hb h₁.quiet h₁.bytes h₂ hok) (fun _ s₃ h₃ => ?_)
      fun _ _ hn hw => absurd hw hn
    obtain ⟨hleaf₃, hc₃⟩ := hloc.rep_rewritten hold.rep hold.ok.nodup h₃ hh
    rw [wp_ite]
    constructor
    · -- the first slot: the keys above follow
      intro h0
      obtain rfl : front = true := hfront.mpr (List.eq_nil_of_length_eq_zero h0)
      have halong : Follows s₃.bytes path.path c :=
        hloc.along.congr fun a ha => h₃.bytes_eq (by rintro rfl; exact hbc ha)
      -- what is done above leaves the leaf alone
      have hkeep {s₄ : St} (ht : Touches c.addrs s₃ s₄) :
          RepAt inodeRef g s₄.bytes (.leaf b (l ++ new :: r)) :=
        hleaf₃.congr (ht.others b hbc)
      rw [hloc.depth]
      refine wp_mono (wp_correctIndexes hnew.fits.firstBlock c _ s₃ hc₃ hcnodup halong) ?_ ?_
      · rintro _ s₄ ⟨ht, hc₄⟩
        exact ⟨_, put_of_rekeyed hloc hold.ok hedit (h₃.quiet.trans ht.quiet) (hkeep ht) hc₄
          hbelongs⟩
      · intro err s₄ hfailed hw hb
        obtain ⟨ht, hread, c', hsame, hc'⟩ := hfailed hw
        exact Or.inr ⟨_, misplaced_of_rewrote hloc hold.ok hb.insertable (hedit hb)
          (h₃.quiet.trans ht.quiet) (hkeep ht) hsame hc', hread.earlier h₃.quiet.suffix⟩
    · intro h0
      obtain rfl : front = false := by
        rcases front with _ | _
        · rfl
        · exact absurd (by rw [hfront.mp rfl]; rfl) h0
      exact ⟨_, put_of_rewrote hloc hold.rep hold.ok hedit h₃ hh hbelongs⟩

end Leaf

end Lemmas

end EspLwext4
