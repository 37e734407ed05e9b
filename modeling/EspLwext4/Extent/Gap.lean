import EspLwext4.Extent.Inserting

/-!
# The room behind a block

`find_next_extent` climbs to the innermost level with a further entry and goes down its
left edge; in a tree without empty nodes this is the first extent behind the leaf. So
`ext4_extent_get_blocks` sees how far it is to the next mapping.
-/

namespace EspLwext4

open Prog Bytes Ranged

variable (inodeRef : InodeRef) (g : Grade)

/-- The first extent that starts behind `v`. -/
def extentBehind (es : List Ext4Extent) (v : ℕ) : Option Ext4Extent :=
  es.find? fun e => decide (v < first e)

section Lemmas

variable {inodeRef g} {D : Disk} {s s' : St} {d e b lblock iblock : ℕ} {es l r : List Ext4Extent}
variable {t u : SepTree Ext4Extent d} {x : Ext4Extent} {ns : List ExtentPathNode}
variable {path : ExtentSearchPath} {leaf : ExtentPathNode} {err : Errno}

/-! ## The left edge -/

theorem AcceptableAt.leftmostOk (h : AcceptableAt inodeRef D u) (h0 : u.addr ≠ 0)
    (hpos : 0 < (D.header (Place.of u.addr)).entriesCount) :
    LeftmostOk inodeRef D d u.addr := by
  obtain ⟨hstanding, hentries, -⟩ := h
  have hcsum := hstanding.csum h0
  have hok := hstanding.headerOk
  have hdepth := hstanding.depth
  rw [Place.of_ne_zero h0] at hentries hpos hcsum hok hdepth
  exact ⟨hok, hdepth, hcsum, hentries, hpos⟩

/-- The left edge of a subtree without empty nodes ends at its first extent. -/
theorem leftmostExtent_eq (hrep : Rep inodeRef g D u) (hfit : u.All (FitAt inodeRef))
    (h0 : u.addr ≠ 0) (hbushy : u.Bushy (· ≠ [])) :
    u.items.head? = some (D.leftmostExtent d u.addr) ∧ EdgeOk inodeRef D d u.addr := by
  induction u with
  | leaf b es =>
      have hok := hrep.self.acceptable_iff.mpr hfit.self
      have hslots : D.slots (Place.of b) = es := hrep.self.entries
      obtain ⟨x, es, rfl⟩ := List.exists_cons_of_ne_nil (show es ≠ [] from hbushy)
      have hlen : 0 < (D.slots (Place.of b)).length := by rw [hslots]; simp
      have hb : Place.of b = .block b := Place.of_ne_zero h0
      refine ⟨?_, hok.leftmostOk h0 (by rwa [← Disk.length_slots])⟩
      have hget := Disk.getElem_slots hlen
      simp only [hslots, List.getElem_cons_zero] at hget
      rw [hb] at hget
      exact congrArg some hget
  | node b cs ih =>
      obtain ⟨hne, hcs⟩ := SepTree.all_node.mp hbushy
      obtain ⟨c, cs, rfl⟩ := List.exists_cons_of_ne_nil (show cs ≠ [] from hne)
      have hok := hrep.self.acceptable_iff.mpr hfit.self
      have hcount := hrep.self.entries.count
      have hb : Place.of b = .block b := Place.of_ne_zero h0
      obtain ⟨-, haddr⟩ := hrep.self.entries.getElem (i := 0) (Nat.succ_pos _)
      have hchild : c.2.addr = indexGetPblock (D.index (.block b) 0) := hb ▸ haddr
      obtain ⟨hhead, hedge⟩ := ih c (by simp) ((SepTree.all_node.mp hrep).2 c (by simp))
        ((SepTree.all_node.mp hfit).2 c (by simp)) (hfit.self.2.2 c (by simp)).1 (hcs c (by simp))
      rw [hchild] at hhead hedge
      refine ⟨?_, hok.leftmostOk h0 (by rw [hcount]; simp), hedge⟩
      rw [SepTree.items_node, List.flatMap_cons, List.head?_append, hhead]
      rfl

/-! ## The extent behind a leaf -/

/-- The innermost level with a further entry has the extents behind the leaf below it; by
induction on the levels, from the leaf up. -/
theorem extentAfter_eq : ∀ {d : ℕ} {c : Ctx Ext4Extent d e} {u : SepTree Ext4Extent d},
    Follows D ns c → c.length ≤ ns.length → c.Around (RepAt inodeRef g D) u →
    c.Around (FitAt inodeRef) u → c.Around (SepTree.BushyAt (· ≠ [])) u →
    D.extentAfter (ns.take c.length) = c.itemsRight.head? ∧
      EdgeAfterOk inodeRef D (ns.take c.length) := by
  intro d c
  induction c with
  | nil =>
      intro u _ _ _ _ _
      exact ⟨rfl, fun n hn => by cases hn⟩
  | @cons d _ f c ih =>
      rintro u ⟨⟨node, hnode, hat⟩, halong⟩ hlen ⟨hf, hreps, hc⟩ ⟨hfit, hfits, hcfit⟩ ⟨-, hbushys, hcbushy⟩
      rw [Ctx.length] at hlen ⊢
      obtain ⟨hlt, hget⟩ := List.getElem?_eq_some_iff.mp hnode
      have hturn : turningPoint (ns.take (c.length + 1)) =
          if node.position + 1 < node.header.entriesCount then some node
          else turningPoint (ns.take c.length) := by
        rw [← turningPoint_concat, ← hget, List.take_append_getElem hlt]
      have hcount : node.header.entriesCount = f.left.length + 1 + f.right.length := by
        have h := hf.entries.count
        rw [hat.header]
        refine h.trans ?_
        simp [Frame.fill]
        omega
      unfold Disk.extentAfter EdgeAfterOk
      rw [hturn, hat.position, hcount, Ctx.itemsRight]
      rcases hright : f.right with _ | ⟨k, ks⟩
      · rw [if_neg (by simp)]
        exact ih halong (by omega) hc hcfit hcbushy
      · have hk : k ∈ f.siblings := by simp [Frame.siblings, hright]
        have hi : f.left.length + 1 < (f.left ++ (f.key, u) :: f.right).length := by
          rw [hright]; simp
        have hshows : Shows _ (.node _ (f.left ++ (f.key, u) :: f.right)) := hf.entries
        obtain ⟨-, haddr⟩ := hshows.getElem hi
        have hkey : (f.left ++ (f.key, u) :: f.right)[f.left.length + 1] = k := by
          rw [List.getElem_append_right (Nat.le_succ _)]
          simp [hright]
        rw [hkey] at haddr
        have hplace : node.place = Place.of f.addr := by
          rw [ExtentPathNode.place, hat.pblockOfNode]
        have hdepth : node.header.depth - 1 = d := by
          rw [hat.header]
          exact congrArg (· - 1) hf.standing.depth
        have h0 : k.2.addr ≠ 0 := (hfit.2.2 k (by simp [hright])).1
        obtain ⟨hhead, hedge⟩ := leftmostExtent_eq (hreps k hk) (hfits k hk) h0 (hbushys k hk)
        rw [haddr] at hhead hedge
        rw [if_pos (by simp), List.flatMap_cons, List.append_assoc, List.head?_append, hhead]
        refine ⟨?_, ?_⟩
        · rw [Option.map_some, hdepth, hplace, hat.position]
          rfl
        · intro n hn
          obtain rfl := Option.some.inj hn
          rw [hdepth, hplace, hat.position]
          exact hedge

/-- On a tree that the code built `find_next_extent` finds the extent behind the leaf. -/
theorem wp_findNextExtent_located (hrep : Rep inodeRef .built s.bytes t)
    (ok : TreeOk inodeRef .built t) {c : Ctx Ext4Extent 0 d}
    (hloc : Located inodeRef s.bytes t lblock path c b es leaf)
    (hlast : ¬ leaf.position + 1 < leaf.header.entriesCount) :
    wp (findNextExtent inodeRef path)
      (fun x s' => c.itemsRight.head? = some x ∧ Reads s s')
      (fun err s' => Reads s s' ∧
        (AccessFailed inodeRef s s' err ∨ err = .enoent ∧ c.itemsRight = [])) s := by
  obtain ⟨ns, hpath⟩ := hloc.pathOk
  have hlen : c.length = ns.length := by rw [← hloc.depth, hpath.depth]
  have hbushy : c.Around (SepTree.BushyAt (· ≠ [])) (.leaf b es) := by
    rcases ok.bushy with rfl | hbushy
    · cases c with
      | nil => trivial
      | cons f c =>
          have := (Ctx.cons f c).depth_eq
          rw [Ctx.length] at this
          omega
    · have hb : (c.plug (.leaf b es)).Bushy (· ≠ []) := hloc.plug ▸ bushy_built.mp hbushy
      exact ((Ctx.all_plug c _).mp hb).2
  have hafter := extentAfter_eq hloc.along (by rw [hpath.nodes, hlen]; simp)
    ((Ctx.all_plug c _).mp (hloc.plug ▸ hrep)).2 ((Ctx.all_plug c _).mp (hloc.plug ▸ ok.fit)).2 hbushy
  rw [hpath.nodes, hlen, List.take_left] at hafter
  obtain ⟨hafter, hedge⟩ := hafter
  have hnext : s.bytes.nextExtent ns leaf = c.itemsRight.head? := by
    unfold Disk.nextExtent
    rw [if_neg hlast, hafter]
  refine wp_mono (wp_findNextExtent hpath (.refl s)) ?_ ?_
  · rintro x s' ⟨hx, hreads, -⟩
    exact ⟨hnext.symm.trans hx, hreads⟩
  · rintro err s' ⟨hreads, hio | ⟨rfl, hnone⟩ | ⟨-, hbad⟩⟩
    · exact ⟨hreads, Or.inl hio⟩
    · exact ⟨hreads, Or.inr ⟨rfl, List.head?_eq_none_iff.mp (hnext.symm.trans hnone)⟩⟩
    · exact absurd hedge hbad

/-- So it does within the leaf. -/
theorem wp_findNextExtent_behind (hrep : Rep inodeRef .built s.bytes t)
    (ok : TreeOk inodeRef .built t) {c : Ctx Ext4Extent 0 d}
    (hloc : Located inodeRef s.bytes t lblock path c b (l ++ x :: r) leaf)
    (hpos : leaf.position = l.length) :
    wp (findNextExtent inodeRef path)
      (fun y s' => (r ++ c.itemsRight).head? = some y ∧ Reads s s')
      (fun err s' => Reads s s' ∧
        (AccessFailed inodeRef s s' err ∨ err = .enoent ∧ r ++ c.itemsRight = [])) s := by
  have hcount := hloc.leafAt.count
  cases r with
  | nil =>
      refine wp_findNextExtent_located hrep ok hloc ?_
      rw [hpos, hcount]
      simp
  | cons y r =>
      obtain ⟨ns, hpath⟩ := hloc.pathOk
      have hsplit : l ++ x :: y :: r = (l ++ [x]) ++ y :: r := by simp
      have hnextpos : leaf.position + 1 = (l ++ [x]).length := by simp [hpos]
      obtain ⟨hlt, hy⟩ := hloc.extent_at hrep hsplit hnextpos
      have hnext : s.bytes.nextExtent ns leaf = some y := by
        unfold Disk.nextExtent
        rw [if_pos hlt, hy]
      refine wp_mono (wp_findNextExtent hpath (.refl s)) ?_ ?_
      · rintro y' s' ⟨hy', hreads, -⟩
        exact ⟨hnext.symm.trans hy', hreads⟩
      · rintro err s' ⟨hreads, hio | ⟨-, hnone⟩ | ⟨hno, -⟩⟩
        · exact ⟨hreads, Or.inl hio⟩
        · cases hnext.symm.trans hnone
        · exact absurd hlt hno

/-! ## The gap -/

/-- Only an empty tree has an empty leaf. -/
theorem Located.items_of_empty {c : Ctx Ext4Extent 0 d}
    (hloc : Located inodeRef s.bytes t lblock path c b [] leaf)
    (hrep : Rep inodeRef .built s.bytes t) (ok : TreeOk inodeRef .built t) : t.items = [] := by
  have hb : b = 0 := by
    by_contra hb
    exact (leafReady_built hrep ok lblock c b [] hloc.plug hloc.chosen hb).1 rfl
  have hlen : c.length = 0 := hloc.depth.symm.trans ((hloc.addr_eq_zero_iff ok).mp hb)
  rw [← hloc.plug]
  cases c with
  | nil => rfl
  | cons f c => exact absurd hlen (Nat.succ_ne_zero _)

theorem extentBehind_append (hl : ∀ e ∈ l, first e ≤ iblock) :
    extentBehind (l ++ r) iblock = extentBehind r iblock := by
  unfold extentBehind
  rw [List.find?_append, List.find?_eq_none.mpr, Option.none_or]
  exact fun e he => by simpa using hl e he

theorem extentBehind_head (hr : ∀ e ∈ r.head?, iblock < first e) :
    extentBehind r iblock = r.head? := by
  cases r with
  | nil => rfl
  | cons x r => exact List.find?_cons_of_pos (decide_eq_true (hr x rfl))

/-- The extents in front of the leaf a search ends in end at or before the block. -/
theorem Located.stop_le_of_left {c : Ctx Ext4Extent 0 d}
    (hloc : Located inodeRef s.bytes t iblock path c b es leaf) (ok : TreeOk inodeRef g t)
    {e : Ext4Extent} (he : e ∈ c.itemsLeft) : stop e ≤ iblock := by
  have hmarks := ok.sorted
  rw [← hloc.plug, Ctx.marks_plug, List.pairwise_append, List.pairwise_append] at hmarks
  have hadmits := hloc.chosen.admits (ok.sorted_post hloc.plug)
  exact hadmits.kept_le hmarks.1.1 _ (Ctx.bounds_itemsLeft he).2

/-- Those behind it start behind the block. -/
theorem Located.lt_first_of_right {c : Ctx Ext4Extent 0 d}
    (hloc : Located inodeRef s.bytes t iblock path c b es leaf) (ok : TreeOk inodeRef g t)
    {e : Ext4Extent} (he : e ∈ c.itemsRight) : iblock < first e := by
  have hadmits := hloc.chosen.admits (ok.sorted_post hloc.plug)
  exact hadmits.lt_post _ (Ctx.bounds_itemsRight he).1

/-- So does the next extent, in the leaf or behind it. -/
theorem Located.lt_first_of_next {c : Ctx Ext4Extent 0 d}
    (hloc : Located inodeRef s.bytes t iblock path c b es leaf) (ok : TreeOk inodeRef g t)
    (hr : ∀ e ∈ r.head?, iblock < first e) : ∀ e ∈ (r ++ c.itemsRight).head?, iblock < first e := by
  intro e he
  cases r with
  | nil => exact hloc.lt_first_of_right ok (List.mem_of_head? he)
  | cons x r => exact hr e he

/-- What lies behind a block, seen from the leaf a search for it ends in. -/
theorem Located.extentBehind_eq {c : Ctx Ext4Extent 0 d}
    (hloc : Located inodeRef s.bytes t iblock path c b (l ++ r) leaf) (ok : TreeOk inodeRef g t)
    (hl : ∀ e ∈ l, first e ≤ iblock) (hr : ∀ e ∈ r.head?, iblock < first e) :
    extentBehind t.items iblock = (r ++ c.itemsRight).head? := by
  have hleft : ∀ e ∈ c.itemsLeft ++ l, first e ≤ iblock := by
    intro e he
    rcases List.mem_append.mp he with he | he
    · exact Nat.le_trans (Nat.le_add_right _ _) (hloc.stop_le_of_left ok he)
    · exact hl e he
  rw [← hloc.plug, Ctx.items_plug, SepTree.items_leaf, ← List.append_assoc, List.append_assoc,
    extentBehind_append hleft]
  exact extentBehind_head (hloc.lt_first_of_next ok hr)

/-- `gapToNext` is the distance to the next extent. A failed read that answers `ENOENT` is
taken for the end of the file. -/
theorem wp_gapToNext (hrep : Rep inodeRef .built s.bytes t) (ok : TreeOk inodeRef .built t)
    {c : Ctx Ext4Extent 0 d} (hloc : Located inodeRef s.bytes t iblock path c b es leaf) :
    wp (gapToNext inodeRef path leaf iblock)
      (fun gap s' => Reads s s' ∧ (IoFailed inodeRef s s' .enoent ∧ gap = none ∨
        gap = (extentBehind t.items iblock).map fun e => first e - iblock))
      (fun err s' => Reads s s' ∧ IoFailed inodeRef s s' err) s := by
  have hcursor := hloc.leafAt.cursor
  have hcount := hloc.leafAt.count
  have hsorted := hloc.apart ok
  have hgap {x : Ext4Extent} (hx : x ∈ t.items) (hlt : iblock < first x) :
      sub32 (first x) iblock = first x - iblock :=
    sub32_of_le (Nat.le_of_lt hlt) (hrep.items_fits x hx).firstBlock
  unfold gapToNext
  generalize hes : es = es' at hcursor
  cases hcursor with
  | empty hpos hhave =>
      subst hes
      rw [wp_ite]
      refine ⟨fun h => absurd h.1 (by rw [hhave]; exact Bool.false_ne_true), fun _ => ?_⟩
      refine ⟨.refl s, Or.inr ?_⟩
      rw [hloc.items_of_empty hrep ok]
      rfl
  | entry l x r hpos hextent hhave hle hlt =>
      subst hes
      have hx := hloc.mem_items (e := x) (by simp)
      have hl {y : Ext4Extent} (hy : y ∈ l) : first y ≤ first x :=
        Nat.le_trans (Nat.le_add_right _ _) ((List.pairwise_append.mp hsorted).2.2 y hy x (by simp))
      rw [wp_ite]
      refine ⟨fun _ => ?_, fun h => absurd ⟨hhave, by rw [hcount]; simp⟩ h⟩
      rw [hextent, wp_ite]
      constructor
      · -- the search ended in front of the entry
        intro hbefore
        obtain rfl : l = [] := hle.resolve_right (Nat.not_le.mpr hbefore)
        refine ⟨.refl s, Or.inr ?_⟩
        have hbehind := hloc.extentBehind_eq (l := []) (r := x :: r) ok (by simp)
          fun e he => by obtain rfl := Option.some.inj he; exact hbefore
        rw [hbehind]
        exact congrArg some (hgap hx hbefore)
      intro hbefore
      have hleft : ∀ e ∈ l ++ [x], first e ≤ iblock := by
        intro e he
        rcases List.mem_append.mp he with he | he
        · exact Nat.le_trans (hl he) (Nat.not_lt.mp hbefore)
        · rw [List.mem_singleton.mp he]
          exact Nat.not_lt.mp hbefore
      have hsplit : l ++ x :: r = (l ++ [x]) ++ r := by simp
      have hbehind : extentBehind t.items iblock = (r ++ c.itemsRight).head? := by
        rw [hsplit] at hloc
        exact hloc.extentBehind_eq ok hleft hlt
      have hlen : leaf.header.entriesCount = l.length + 1 + r.length := by
        rw [hcount]
        simp
        omega
      rw [hbehind, wp_ite, hpos, hlen]
      constructor
      · -- the next entry of the leaf
        intro hnext
        obtain ⟨y, r, rfl⟩ := List.exists_cons_of_ne_nil (show r ≠ [] by rintro rfl; simp at hnext)
        rw [wp_bind]
        refine wp_mono (hloc.wp_nodeGetExtent hrep (l := l ++ [x]) (y := y) (r := r) (by simp)
          (by simp)) ?_ fun _ _ h => ⟨h.1, h.2.io⟩
        rintro y' s₁ ⟨rfl, h₁⟩
        refine ⟨h₁, Or.inr ?_⟩
        exact congrArg some (hgap (hloc.mem_items (by simp)) (hlt _ rfl))
      · -- the next leaf
        intro hlast
        obtain rfl : r = [] := List.eq_nil_of_length_eq_zero (by omega)
        rw [List.nil_append, wp_bind, wp_attempt]
        refine wp_mono (wp_findNextExtent_located hrep ok hloc (by rw [hpos, hlen]; exact hlast))
          ?_ ?_
        · rintro y s₁ ⟨hy, h₁⟩
          have hyt : y ∈ t.items := by
            rw [← hloc.plug, Ctx.items_plug]
            exact List.mem_append_right _ (List.mem_of_head? hy)
          have hlt' : iblock < first y := hloc.lt_first_of_right ok (List.mem_of_head? hy)
          show wp (if y.firstBlock ≤ iblock then _ else _) _ _ _
          rw [wp_ite]
          refine ⟨fun h => absurd hlt' (Nat.not_lt.mpr h), fun _ => ⟨h₁, Or.inr ?_⟩⟩
          rw [hy]
          exact congrArg some (hgap hyt hlt')
        · rintro err s₁ ⟨h₁, hfail⟩
          by_cases herr : err = .enoent
          · subst herr
            refine ⟨h₁, hfail.imp (fun hread => ⟨hread.io, rfl⟩) ?_⟩
            rintro ⟨-, hnone⟩
            rw [hnone]
            rfl
          · have hio := hfail.resolve_right fun h => herr h.1
            cases err with
            | enoent => exact absurd rfl herr
            | _ => exact ⟨h₁, hio.io⟩

end Lemmas

end EspLwext4
