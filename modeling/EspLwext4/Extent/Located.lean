import EspLwext4.Lib.TreeSearch
import EspLwext4.Extent.Tree
import EspLwext4.Extent.Neighbours

/-!
# A search path as a place in the tree

On a disk that represents a tree, the path `find_extent` returns is a context of
that tree with the leaf in its hole: `Follows` ties each frame to the path node
copied from it, `LeafAt` ties the cached entry to a split of the leaf.
-/

namespace EspLwext4

open Prog Bytes Ranged

variable (inodeRef : InodeRef) (g : Grade)

/-- The root node of `u` passes every check of the code. -/
def AcceptableAt (D : Disk) {d : ℕ} (u : SepTree Ext4Extent d) : Prop :=
  Acceptable inodeRef D d u.addr

/-- The entries of the root node of `u` pass every check of the code. -/
def FitAt : {d : ℕ} → SepTree Ext4Extent d → Prop
  | 0, .leaf _ es => LeafEntriesOk inodeRef es
  | _ + 1, .node _ cs => cs ≠ [] ∧ (cs.map fun c => c.1).Pairwise (· < ·) ∧
      ∀ c ∈ cs, c.2.addr ≠ 0 ∧ c.2.addr < inodeRef.blocksCnt

/-- The path node copied from the inner node `f`. -/
structure NodeAt (D : Disk) (node : ExtentPathNode) {d : ℕ} (f : Frame Ext4Extent d) : Prop where
  pblockOfNode : node.pblockOfNode = f.addr
  header : node.header = D.header (Place.of f.addr)
  position : node.position = f.left.length
  index : node.index = D.index (Place.of f.addr) f.left.length

/-- The path nodes of the levels above the hole. -/
def Follows (D : Disk) (ns : List ExtentPathNode) : {d e : ℕ} → Ctx Ext4Extent d e → Prop
  | _, _, .nil => True
  | _, _, .cons f c => (∃ node, ns[c.length]? = some node ∧ NodeAt D node f) ∧ Follows D ns c

/-- Where a search for `lblock` stopped in a leaf. -/
inductive Cursor (lblock : ℕ) (leaf : ExtentPathNode) : List Ext4Extent → Prop
  | empty (position : leaf.position = 0) (haveExtent : leaf.haveExtent = false) :
      Cursor lblock leaf []
  | entry (l : List Ext4Extent) (e : Ext4Extent) (r : List Ext4Extent)
      (position : leaf.position = l.length) (extent : leaf.extent = e)
      (haveExtent : leaf.haveExtent = true) (le : l = [] ∨ e.firstBlock ≤ lblock)
      (lt : ∀ e' ∈ r.head?, lblock < e'.firstBlock) : Cursor lblock leaf (l ++ e :: r)

/-- The path node of the leaf `b` with the entries `es`. -/
structure LeafAt (D : Disk) (lblock : ℕ) (leaf : ExtentPathNode) (b : ℕ) (es : List Ext4Extent) :
    Prop where
  pblockOfNode : leaf.pblockOfNode = b
  header : leaf.header = D.header (Place.of b)
  count : leaf.header.entriesCount = es.length
  cursor : Cursor lblock leaf es

/-- The path `path` to `lblock` is the context `c` with the leaf `b` in its hole. -/
structure Located (D : Disk) {d : ℕ} (t : SepTree Ext4Extent d) (lblock : ℕ)
    (path : ExtentSearchPath) (c : Ctx Ext4Extent 0 d) (b : ℕ) (es : List Ext4Extent)
    (leaf : ExtentPathNode) : Prop where
  plug : c.plug (.leaf b es) = t
  chosen : c.Chosen lblock
  depth : path.depth = c.length
  along : Follows D path.path c
  leafNode : path.path[path.depth]? = some leaf
  leafAt : LeafAt D lblock leaf b es
  sane : PathSane inodeRef path
  pathOk : ∃ ns, PathOk inodeRef D lblock path ns leaf

section Lemmas

variable {inodeRef g} {D : Disk} {d e lblock : ℕ} {ns ns' : List ExtentPathNode}

/-! ## Reading the entries of an inner node -/

theorem Shows.count {u : SepTree Ext4Extent d} (h : Shows D u) :
    (D.header (Place.of u.addr)).entriesCount = u.keys.length := by
  rw [← Disk.length_slots]
  cases u with
  | leaf b es =>
      have hes : D.slots (Place.of b) = es := h
      simp [hes]
  | node b cs =>
      have hcs := congrArg List.length (show (D.slots (Place.of b)).map (·.child) = _ from h)
      simpa using hcs

theorem Shows.getElem {b i : ℕ} {cs : List (ℕ × SepTree Ext4Extent d)}
    (h : Shows D (.node b cs)) (hi : i < cs.length) :
    cs[i].1 = D.key (Place.of b) i ∧ cs[i].2.addr = indexGetPblock (D.index (Place.of b) i) := by
  have hmap : (D.slots (Place.of b)).map (·.child) = cs.map fun c => (c.1, c.2.addr) := h
  have hlen : (D.slots (Place.of b)).length = cs.length := by
    have := congrArg List.length hmap
    simpa using this
  have hget : ((D.slots (Place.of b)).map (·.child))[i]? =
      (cs.map fun c => (c.1, c.2.addr))[i]? := by rw [hmap]
  rw [List.getElem?_map, List.getElem?_map, List.getElem?_eq_getElem hi,
    List.getElem?_eq_getElem (by omega), Disk.getElem_slots] at hget
  have hchild := Option.some.inj hget
  rw [Disk.index_eq]
  exact ⟨(congrArg Prod.fst hchild).symm, (congrArg Prod.snd hchild).symm⟩

/-- A list at one of its positions. -/
theorem split_at_getElem {α : Type} {l : List α} {i : ℕ} (h : i < l.length) :
    ∃ l₁ l₂, l = l₁ ++ l[i] :: l₂ ∧ l₁.length = i :=
  ⟨l.take i, l.drop (i + 1), by rw [List.getElem_cons_drop, List.take_append_drop], by
    rw [List.length_take]; omega⟩

/-- One level of a search on an inner node. -/
theorem LevelOk.split {b : ℕ} {cs : List (ℕ × SepTree Ext4Extent d)} {node : ExtentPathNode}
    (hl : LevelOk inodeRef D lblock d b node) (h : Shows D (.node b cs)) :
    ∃ f : Frame Ext4Extent d, ∃ u, f.fill u = .node b cs ∧ NodeAt D node f ∧
      u.addr = node.pblock ∧ (f.left = [] ∨ f.key ≤ lblock) ∧ ∀ k ∈ f.right.head?, lblock < k.1 := by
  have hcount : node.header.entriesCount = cs.length := by
    have := h.count
    rw [SepTree.keys_node, List.length_map] at this
    rw [hl.header]
    exact this
  have hchosen := hl.chosen
  rw [hcount] at hchosen
  have hpos := hchosen.lt
  obtain ⟨left, right, hsplit, hleft⟩ := split_at_getElem hpos
  obtain ⟨hkey, haddr⟩ := h.getElem hpos
  generalize cs[node.position] = x at hsplit hkey haddr
  obtain ⟨k, u⟩ := x
  refine ⟨⟨b, left, k, right⟩, u, by rw [hsplit]; rfl, ?_, ?_, ?_, ?_⟩
  · exact ⟨hl.pblockOfNode, hl.header, hleft.symm, by rw [hleft]; exact hl.index⟩
  · rw [hl.pblock, hl.index]
    exact haddr
  · rcases hchosen.le with h0 | hle
    · exact Or.inl (List.eq_nil_of_length_eq_zero (hleft.trans h0))
    · exact Or.inr (hkey.trans_le hle)
  · rintro ⟨k', u'⟩ hk'
    rcases hright : right with _ | ⟨x, right'⟩
    · rw [hright] at hk'
      cases hk'
    · rw [hright] at hk'
      obtain rfl := Option.some.inj hk'
      have hlen : cs.length = left.length + 1 + (right'.length + 1) := by
        rw [hsplit, hright]; simp; omega
      have hnext := hchosen.next.resolve_left (by omega)
      have hi : node.position + 1 < cs.length := by omega
      obtain ⟨hkey', -⟩ := h.getElem hi
      have hx : cs[node.position + 1] = (k', u') := by
        have : cs[node.position + 1]? = some (k', u') := by
          rw [hsplit, hright, ← hleft, List.getElem?_append_right (by omega)]
          simp
        exact (List.getElem?_eq_some_iff.mp this).2
      rw [hx] at hkey'
      exact hkey' ▸ hnext

/-- More levels further down leave the upper ones in place. -/
theorem Follows.append {c : Ctx Ext4Extent d e} (h : Follows D ns c) (hle : c.length ≤ ns.length) :
    Follows D (ns ++ ns') c := by
  induction c with
  | nil => trivial
  | cons f c ih =>
      obtain ⟨⟨node, hnode, hat⟩, hc⟩ := h
      rw [Ctx.length] at hle
      exact ⟨⟨node, by rw [List.getElem?_append_left hle]; exact hnode, hat⟩, ih hc (by omega)⟩

/-- A chain of levels is a context. -/
theorem Levels.ctx : ∀ {ns : List ExtentPathNode} (ns₀ : List ExtentPathNode) {d d' b' : ℕ}
    (c₀ : Ctx Ext4Extent d e) {u₀ : SepTree Ext4Extent d}, Levels inodeRef D lblock d u₀.addr ns d' b' →
    Rep inodeRef g D u₀ → Follows D ns₀ c₀ → c₀.length = ns₀.length → c₀.Chosen lblock →
    ∃ (c : Ctx Ext4Extent d' e) (u : SepTree Ext4Extent d'), c.plug u = c₀.plug u₀ ∧ u.addr = b' ∧
      Follows D (ns₀ ++ ns) c ∧ c.length = ns₀.length + ns.length ∧ c.Chosen lblock := by
  intro ns
  induction ns with
  | nil =>
      intro ns₀ d d' b' c₀ u₀ hl _ halong hlen hchosen
      obtain ⟨rfl, rfl⟩ := hl.of_nil
      exact ⟨c₀, u₀, rfl, rfl, by rwa [List.append_nil], by simpa using hlen, hchosen⟩
  | cons node ns ih =>
      intro ns₀ d d' b' c₀ u₀ hl hrep halong hlen hchosen
      obtain ⟨d, rfl, hlevel, hrest⟩ := hl.of_cons
      cases u₀ with
      | node b cs =>
        obtain ⟨f, u, hfill, hat, haddr, hle, hlt⟩ := hlevel.split hrep.self.entries
        have hsub : Rep inodeRef g D (f.fill u) := hfill ▸ hrep
        rw [← haddr] at hrest
        have halong' : Follows D (ns₀ ++ [node]) (Ctx.cons f c₀) :=
          ⟨⟨node, by rw [hlen]; simp, hat⟩, halong.append hlen.le⟩
        obtain ⟨c, u', hplug, haddr', hall, hlen', hch⟩ :=
          ih (ns₀ ++ [node]) (Ctx.cons f c₀) hrest ((SepTree.all_node.mp hsub).2 (f.key, u) (by simp))
            halong' (by rw [Ctx.length, hlen]; simp) ⟨hle, hlt, hchosen⟩
        refine ⟨c, u', ?_, haddr', ?_, ?_, hch⟩
        · rw [hplug, Ctx.plug_cons, hfill]
          rfl
        · simpa using hall
        · rw [hlen']; simp; omega

/-! ## Nodes of a good tree pass the checks -/

theorem Ctx.child_ne_root {c : Ctx Ext4Extent (d + 1) e} {b : ℕ} {cs : List (ℕ × SepTree Ext4Extent d)}
    (hnodup : (c.plug (.node b cs)).addrs.Nodup) {k : ℕ × SepTree Ext4Extent d} (hk : k ∈ cs) :
    k.2.addr ≠ (c.plug (.node b cs)).addr := by
  rw [Ctx.addrs_plug, Multiset.nodup_add] at hnodup
  obtain ⟨-, hnode, hdisj⟩ := hnodup
  have hmem : k.2.addr ∈ (cs.map fun c => c.2.addrs).sum :=
    SepTree.mem_sum_addrs.mpr ⟨k, hk, SepTree.addr_mem_addrs _⟩
  rw [Ctx.addr_plug]
  intro heq
  rcases c.rootAddr_mem (SepTree.node b cs).addr with hroot | hroot
  · rw [SepTree.addrs_node, Multiset.nodup_cons] at hnode
    refine hnode.1 ?_
    have hkb : k.2.addr = b := heq.trans hroot
    exact hkb ▸ hmem
  · refine Multiset.disjoint_left.mp hdisj hroot ?_
    rw [← heq]
    exact Multiset.mem_cons_of_mem hmem

section Tree

variable {t : SepTree Ext4Extent e}

/-- The subtree in a hole of a good tree. -/
theorem TreeOk.sub (ok : TreeOk inodeRef g t) {c : Ctx Ext4Extent d e} {u : SepTree Ext4Extent d}
    (hplug : c.plug u = t) : u.Ordered ∧ (e = 0 ∨ u.Bushy g.Holds) ∧ u.marks.Pairwise (· ≤ ·) ∧
      ∀ x ∈ u.items, extentInRange inodeRef x = true := by
  subst hplug
  refine ⟨((Ctx.all_plug c u).mp ok.ordered).1,
    ok.bushy.imp id fun h => ((Ctx.all_plug c u).mp h).1, ?_, fun x hx => ok.inRange x ?_⟩
  · have h := ok.sorted
    rw [Ctx.marks_plug, List.pairwise_append, List.pairwise_append] at h
    exact h.1.2.1
  · rw [Ctx.items_plug]
    exact List.mem_append_left _ (List.mem_append_right _ hx)

/-- The entries of such a tree pass the checks. -/
theorem TreeFit.fit (h : TreeFit inodeRef g t) : t.All (FitAt inodeRef) := by
  refine Ctx.all_of_plug fun {d} c u hplug => ?_
  have hord : u.Ordered := ((Ctx.all_plug c u).mp (hplug ▸ h.ordered)).1
  have hitems : u.items.Sublist t.items := by
    rw [← hplug, Ctx.items_plug]
    exact (List.sublist_append_right _ _).trans (List.sublist_append_left _ _)
  cases u with
  | leaf b es => exact ⟨fun x hx => h.inRange x (hitems.subset hx), h.apart.sublist hitems⟩
  | node b cs =>
      refine ⟨?_, hord.self, fun k hk => ?_⟩
      · rcases h.bushy with h0 | hb
        · have := c.depth_eq
          omega
        · exact ((Ctx.all_plug c _).mp (hplug ▸ hb)).1.self
      · have hmem : k.2.addr ∈ t.addrs := by
          rw [← hplug, Ctx.addrs_plug, Multiset.mem_add]
          exact Or.inr (SepTree.mem_addrs_node hk (SepTree.addr_mem_addrs _))
        have hne : k.2.addr ≠ 0 := by
          have hnodup := h.nodup
          have haddr := h.addr
          rw [← hplug] at hnodup haddr
          rw [← haddr]
          exact Ctx.child_ne_root hnodup hk
        exact ⟨hne, h.inside _ hmem hne⟩

theorem TreeOk.fit (ok : TreeOk inodeRef g t) : t.All (FitAt inodeRef) := ok.treeFit.fit

/-- The keys of a node that passes the checks are sorted. -/
theorem FitAt.sortedAt {u : SepTree Ext4Extent d} (h : FitAt inodeRef u) : SepTree.SortedAt u := by
  cases u with
  | leaf b es =>
      show (es.map first).Pairwise (· ≤ ·)
      rw [List.pairwise_map]
      exact h.sorted.imp fun {x y} hxy => Nat.le_trans (Nat.le_add_right _ _) hxy
  | node b cs => exact h.2.1.imp fun {x y} hxy => Nat.le_of_lt hxy

/-- Index entries, by the keys and the children they name. -/
theorem indexEntriesOk_iff {es : List Ext4Extent} :
    IndexEntriesOk inodeRef (es.map (·.asIndex)) ↔
      (∀ x ∈ es.map (·.child), x.2 ≠ 0 ∧ x.2 < inodeRef.blocksCnt) ∧
        (es.map (·.child)).Pairwise fun x y => x.1 < y.1 := by
  constructor
  · rintro ⟨hrange, hsorted⟩
    refine ⟨fun x hx => ?_, ?_⟩
    · obtain ⟨y, hy, rfl⟩ := List.mem_map.mp hx
      exact childInRange_iff.mp (hrange _ (List.mem_map_of_mem hy))
    · rw [List.pairwise_map] at hsorted ⊢
      exact hsorted
  · rintro ⟨hrange, hsorted⟩
    refine ⟨fun x hx => ?_, ?_⟩
    · obtain ⟨y, hy, rfl⟩ := List.mem_map.mp hx
      exact childInRange_iff.mpr (hrange _ (List.mem_map_of_mem hy))
    · rw [List.pairwise_map] at hsorted ⊢
      exact hsorted

/-- A node on the disk passes every check when its entries do. -/
theorem RepAt.acceptable_iff {u : SepTree Ext4Extent d} (h : RepAt inodeRef g D u) :
    AcceptableAt inodeRef D u ↔ FitAt inodeRef u := by
  have hcount := h.entries.count
  cases u with
  | leaf b es =>
      have hes : D.extents (Place.of b) (D.header (Place.of b)).entriesCount = es := h.entries
      have hentries : EntriesOk inodeRef D (Place.of b) (D.header (Place.of b)) ↔
          LeafEntriesOk inodeRef es := by
        unfold EntriesOk
        rw [show (D.header (Place.of b)).depth = 0 from h.standing.depth, if_pos rfl, hes]
      exact ⟨fun ha => hentries.mp ha.entries,
        fun hf => ⟨h.standing, hentries.mpr hf, fun h0 => absurd rfl h0⟩⟩
  | node b cs =>
      have hmap : (D.slots (Place.of b)).map (·.child) = cs.map fun c => (c.1, c.2.addr) :=
        h.entries
      have hdepth : (D.header (Place.of b)).depth = _ + 1 := h.standing.depth
      have hentries : EntriesOk inodeRef D (Place.of b) (D.header (Place.of b)) ↔
          (cs.map fun c => c.1).Pairwise (· < ·) ∧
            ∀ c ∈ cs, c.2.addr ≠ 0 ∧ c.2.addr < inodeRef.blocksCnt := by
        unfold EntriesOk
        rw [if_neg (by rw [hdepth]; exact Nat.succ_ne_zero _), Disk.indexes_eq, indexEntriesOk_iff,
          hmap, List.pairwise_map, List.pairwise_map, List.forall_mem_map]
        exact And.comm
      have hlen : (D.header (Place.of b)).entriesCount = cs.length :=
        hcount.trans (List.length_map _)
      constructor
      · intro ha
        have hpos := ha.nonempty (Nat.succ_ne_zero _)
        refine ⟨?_, hentries.mp ha.entries⟩
        rintro rfl
        rw [SepTree.addr_node, hlen] at hpos
        exact absurd hpos (Nat.lt_irrefl 0)
      · rintro ⟨hne, hfit⟩
        refine ⟨h.standing, hentries.mpr hfit, fun _ => ?_⟩
        rw [SepTree.addr_node, hlen]
        exact List.length_pos_of_ne_nil hne

theorem Rep.acceptable_all (hrep : Rep inodeRef g D t) (hfit : t.All (FitAt inodeRef)) :
    t.All (AcceptableAt inodeRef D) :=
  (hrep.and hfit).imp fun _ _ h => h.1.acceptable_iff.mpr h.2

theorem TreeOk.acceptable_all (ok : TreeOk inodeRef g t) (hrep : Rep inodeRef g D t) :
    t.All (AcceptableAt inodeRef D) := Rep.acceptable_all hrep ok.fit

theorem TreeOk.acceptable (ok : TreeOk inodeRef g t) (hrep : Rep inodeRef g D t)
    {c : Ctx Ext4Extent d e} {u : SepTree Ext4Extent d} (hplug : c.plug u = t) :
    Acceptable inodeRef D d u.addr := by
  subst hplug
  exact ((Ctx.all_plug c u).mp (ok.acceptable_all hrep)).1.self

/-! ## Searching -/

theorem LeafOk.at {leaf : ExtentPathNode} {b : ℕ} {es : List Ext4Extent}
    (h : LeafOk inodeRef D lblock b leaf) (hs : Shows D (.leaf b es)) : LeafAt D lblock leaf b es := by
  have hcount : leaf.header.entriesCount = es.length := by
    have := hs.count
    rw [SepTree.keys_leaf, List.length_map] at this
    rw [h.header]
    exact this
  have hes : D.slots (Place.of b) = es := hs
  refine ⟨h.pblockOfNode, h.header, hcount, ?_⟩
  rcases Nat.eq_zero_or_pos leaf.header.entriesCount with h0 | hpos
  · obtain rfl := List.eq_nil_of_length_eq_zero (hcount.symm.trans h0)
    refine .empty (h.empty h0) ?_
    by_contra hhave
    rw [Bool.not_eq_false, h.haveExtent] at hhave
    omega
  · have hchosen := h.chosen hpos
    rw [hcount] at hchosen
    obtain ⟨l, r, hsplit, hl⟩ := split_at_getElem hchosen.lt
    have hget {i : ℕ} (hi : i < es.length) : es[i] = D.extent (Place.of b) i := by
      subst hes
      exact Disk.getElem_slots hi
    rw [hget hchosen.lt] at hsplit
    rw [hsplit]
    refine .entry l _ r hl.symm h.extent (h.haveExtent.mpr hpos) ?_ ?_
    · exact hchosen.le.imp (fun h0 => List.eq_nil_of_length_eq_zero (hl.trans h0)) id
    · intro e' he'
      rcases r with _ | ⟨x, r⟩
      · cases he'
      · obtain rfl := Option.some.inj he'
        have hlen := congrArg List.length hsplit
        rw [List.length_append, List.length_cons, List.length_cons, hl] at hlen
        have hi : leaf.position + 1 < es.length := by omega
        have hx : es[leaf.position + 1] = x := by
          have : es[leaf.position + 1]? = some x := by
            rw [hsplit, ← hl, List.getElem?_append_right (by omega)]
            simp
          exact (List.getElem?_eq_some_iff.mp this).2
        have hnext := hchosen.next.resolve_left (by omega)
        rw [← hx, hget hi]
        exact hnext

/-- A search on a tree of acceptable nodes ends in a leaf, unless a block cannot be read. -/
theorem wp_findExtent_acceptable {s : St} (hrep : Rep inodeRef g s.bytes t) (haddr : t.addr = 0)
    (hall : t.All (AcceptableAt inodeRef s.bytes)) :
    wp (findExtent inodeRef lblock)
      (fun path s' => Reads s s' ∧ ∃ c b es leaf,
        Located inodeRef s.bytes t lblock path c b es leaf ∧ leaf.pblock = leaf.resolve lblock)
      (fun err s' => Reads s s' ∧ ReadFailed inodeRef s s' .findExtent err) s := by
  have hroot : (s.bytes.header .root).depth = e := by
    have := hrep.depth_eq
    rwa [haddr] at this
  have down {ns : List ExtentPathNode} {d' b' : ℕ}
      (hl : Levels inodeRef s.bytes lblock (s.bytes.header .root).depth 0 ns d' b') :
      ∃ (c : Ctx Ext4Extent d' e) (u : SepTree Ext4Extent d'), c.plug u = t ∧ u.addr = b' ∧
        Follows s.bytes ns c ∧ c.length = ns.length ∧ c.Chosen lblock := by
    rw [hroot, ← haddr] at hl
    simpa using Levels.ctx [] .nil hl hrep trivial rfl trivial
  refine wp_mono wp_findExtent ?_ ?_
  · rintro path s' ⟨ns, leaf, hfound⟩
    have hpath := hfound.pathOk
    refine ⟨hfound.reads, ?_⟩
    obtain ⟨c, u, hplug, haddr, halong, hlen, hchosen⟩ := down hpath.levels
    cases u with
    | leaf b es =>
      have hu : Shows s.bytes (.leaf b es) :=
        ((Ctx.all_plug c (.leaf b es)).mp (hplug ▸ hrep)).1.entries
      have hleafOk : LeafOk inodeRef s.bytes lblock b leaf := by
        have hb : b = leaf.pblockOfNode := haddr
        rw [hb]
        exact hpath.leafOk
      have hnodes : Follows s.bytes path.path c := by
        rw [hpath.nodes]
        exact halong.append hlen.le
      have hleafNode : path.path[path.depth]? = some leaf := by
        rw [hpath.nodes, hpath.depth]
        simp
      exact ⟨c, b, es, leaf, ⟨hplug, hchosen, hpath.depth.trans hlen.symm, hnodes, hleafNode,
        hleafOk.at hu, hpath.sane, ns, hpath⟩, hfound.pblock⟩
  · rintro err s' ⟨hreads, hfailed | ⟨ns, d', b', hlevels, hbad⟩⟩
    · exact ⟨hreads, hfailed⟩
    · obtain ⟨c, u, hplug, rfl, -⟩ := down hlevels
      have hacc : AcceptableAt inodeRef s.bytes u :=
        ((Ctx.all_plug c u).mp (hplug ▸ hall)).1.self
      exact absurd hacc hbad

/-- On a good tree a search ends in a leaf, unless a block cannot be read. -/
theorem wp_findExtent_located {s : St} (hrep : Rep inodeRef g s.bytes t) (ok : TreeOk inodeRef g t) :
    wp (findExtent inodeRef lblock)
      (fun path s' => Reads s s' ∧ ∃ c b es leaf, Located inodeRef s.bytes t lblock path c b es leaf)
      (fun err s' => Reads s s' ∧ ReadFailed inodeRef s s' .findExtent err) s := by
  refine wp_mono (wp_findExtent_acceptable hrep ok.addr (ok.acceptable_all hrep)) ?_ fun _ _ h => h
  rintro path s' ⟨hreads, c, b, es, leaf, hloc, -⟩
  exact ⟨hreads, c, b, es, leaf, hloc⟩

end Tree

end Lemmas

end EspLwext4
