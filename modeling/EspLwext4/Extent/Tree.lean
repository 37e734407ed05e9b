import EspLwext4.Lib.TreeSurgery
import EspLwext4.Extent.Rewrite

/-!
# The extent tree of a disk

`Disk.tree` reads the tree below a node. `Rep D t` says node by node that the tree
`t` is on the disk `D`, so that the rewrite of one node is a statement about that
node alone; `TreeOk t` says what the entries and the keys of `t` satisfy. A disk is
`WellFormed` when the tree below its root is both and no extent ends behind 2^32 - 1,
`Coherent` when extents may end at 2^32.
-/

namespace EspLwext4

open Prog Bytes Ranged

/-- An extent covers its logical blocks. -/
instance : Ranged Ext4Extent where
  first e := e.firstBlock
  stop e := e.firstBlock + extentGetActualLen e

@[simp] theorem first_extent (e : Ext4Extent) : first e = e.firstBlock := rfl

@[simp] theorem stop_extent (e : Ext4Extent) : stop e = e.firstBlock + extentGetActualLen e := rfl

/-- The tree of depth `d` below node `b`. -/
def Disk.tree (D : Disk) : (d b : ℕ) → SepTree Ext4Extent d
  | 0, b => .leaf b (D.slots (Place.of b))
  | d + 1, b => .node b ((D.slots (Place.of b)).map fun e => (e.child.1, D.tree d e.child.2))

/-- Depth of the root. -/
def Disk.rootDepth (D : Disk) : ℕ := (D.header .root).depth

/-- The whole tree. -/
def Disk.root (D : Disk) : SepTree Ext4Extent D.rootDepth := D.tree D.rootDepth 0

/-! ## Two grades of trees -/

/-- What the checks of the code accept, and what the code itself builds. -/
inductive Grade where
  | accepted | built
deriving DecidableEq

variable (inodeRef : InodeRef) (g : Grade)

/-- How many entries node `b` may declare: nodes the code builds declare all that fit. -/
def Grade.Declares (b n : ℕ) : Prop := g = .built → b ≠ 0 → n = capacity inodeRef

/-- What a leaf below the root may hold. -/
def Grade.Holds (es : List Ext4Extent) : Prop := g = .built → es ≠ []

/-! ## Trees on a disk -/

/-- `es`, read as the entries of a node at the depth of `u`, are those of `u`. -/
def Lists (es : List Ext4Extent) : {d : ℕ} → SepTree Ext4Extent d → Prop
  | 0, .leaf _ es' => es = es'
  | _ + 1, .node _ cs => es.map (·.child) = cs.map fun c => (c.1, c.2.addr)

/-- The entries of the root node of `u` are in its block. -/
def Shows (D : Disk) {d : ℕ} (u : SepTree Ext4Extent d) : Prop := Lists (D.slots (Place.of u.addr)) u

/-- The root node of `u` has a header as its place in the tree asks. -/
structure StandsAt (D : Disk) {d : ℕ} (u : SepTree Ext4Extent d) : Prop where
  standing : Standing inodeRef D d u.addr
  declares : g.Declares inodeRef u.addr (D.header (Place.of u.addr)).maxEntriesCount

/-- The root node of `u` is on the disk. -/
structure RepAt (D : Disk) {d : ℕ} (u : SepTree Ext4Extent d) : Prop
    extends StandsAt inodeRef g D u where
  entries : Shows D u

/-- All nodes of `t` are on the disk. -/
abbrev Rep (D : Disk) {d : ℕ} (t : SepTree Ext4Extent d) : Prop := t.All (RepAt inodeRef g D)

/-- An extent is in the volume and ends at or before 2^32 - 1. -/
structure ExtentOk (e : Ext4Extent) : Prop where
  inRange : extentInRange inodeRef e = true
  stop_le : stop e ≤ uint32Max

/-- What the entries and the keys of a whole tree satisfy. Sorted marks say that a key
is at most every first block below it and that nothing below it ends behind the
next key. -/
structure TreeOk {d : ℕ} (t : SepTree Ext4Extent d) : Prop where
  addr : t.addr = 0
  nodup : t.addrs.Nodup
  inside : ∀ a ∈ t.addrs, a ≠ 0 → a < inodeRef.blocksCnt
  sorted : t.marks.Pairwise (· ≤ ·)
  ordered : t.Ordered
  bushy : d = 0 ∨ t.Bushy g.Holds
  inRange : ∀ e ∈ t.items, extentInRange inodeRef e = true

/-- What the checks of the code want of the entries and the keys of a whole tree. The keys
need not bound what is below them. -/
structure TreeFit {d : ℕ} (t : SepTree Ext4Extent d) : Prop where
  addr : t.addr = 0
  nodup : t.addrs.Nodup
  inside : ∀ a ∈ t.addrs, a ≠ 0 → a < inodeRef.blocksCnt
  ordered : t.Ordered
  bushy : d = 0 ∨ t.Bushy g.Holds
  inRange : ∀ e ∈ t.items, extentInRange inodeRef e = true
  apart : t.items.Pairwise fun e e' => stop e ≤ first e'

/-- The children of a node are blocks of the volume. -/
def ChildrenIn : {d : ℕ} → SepTree Ext4Extent d → Prop
  | 0, _ => True
  | _ + 1, .node _ cs => ∀ c ∈ cs, c.2.addr ≠ 0 ∧ c.2.addr < inodeRef.blocksCnt

/-- The well-formed extent trees: node headers and checksums as `StandsAt` says with
full capacity declared, no empty node but an empty root leaf, increasing keys that
bound what is below them, and extents inside the volume. -/
structure WellFormed (D : Disk) : Prop where
  stands : D.root.All (StandsAt inodeRef .built D)
  bushy : D.rootDepth = 0 ∨ D.root.Bushy (· ≠ [])
  ordered : D.root.Ordered
  sorted : D.root.marks.Pairwise (· ≤ ·)
  children : D.root.All (ChildrenIn inodeRef)
  extents : ∀ e ∈ D.root.items, ExtentOk inodeRef e

/-- The well-formed trees but for their extents, which end where the code's own checks let
them: at 2^32 at the latest. -/
structure Coherent (D : Disk) : Prop where
  stands : D.root.All (StandsAt inodeRef .built D)
  bushy : D.rootDepth = 0 ∨ D.root.Bushy (· ≠ [])
  ordered : D.root.Ordered
  sorted : D.root.marks.Pairwise (· ≤ ·)
  children : D.root.All (ChildrenIn inodeRef)
  inRange : ∀ e ∈ D.root.items, extentInRange inodeRef e = true

section Lemmas

variable {inodeRef g} {D D' : Disk} {d : ℕ} {u t : SepTree Ext4Extent d}

theorem Grade.declares_zero (n : ℕ) : g.Declares inodeRef 0 n := fun _ h => absurd rfl h

theorem Grade.declares_capacity (b : ℕ) : g.Declares inodeRef b (capacity inodeRef) :=
  fun _ _ => rfl

theorem Grade.holds_of_ne_nil {es : List Ext4Extent} (h : es ≠ []) : g.Holds es := fun _ => h

/-! ## Frames -/

theorem Standing.congr {b : ℕ} (h : Standing inodeRef D d b)
    (hD : D' (Place.of b) = D (Place.of b)) : Standing inodeRef D' d b := by
  obtain ⟨h₁, h₂, h₃⟩ := h
  refine ⟨?_, ?_, ?_⟩
  · unfold Disk.header at h₁ ⊢
    rwa [hD]
  · unfold Disk.header at h₂ ⊢
    rwa [hD]
  · rwa [hD]

theorem Shows.congr (h : Shows D u) (hD : D' (Place.of u.addr) = D (Place.of u.addr)) :
    Shows D' u := by
  unfold Shows Disk.slots at h ⊢
  rwa [hD]

/-- A node is on every disk with the same contents in its place. -/
theorem RepAt.congr (h : RepAt inodeRef g D u) (hD : D' (Place.of u.addr) = D (Place.of u.addr)) :
    RepAt inodeRef g D' u := by
  refine ⟨⟨h.standing.congr hD, ?_⟩, h.entries.congr hD⟩
  unfold Disk.header
  rw [hD]
  exact h.declares

theorem Rep.frame (h : Rep inodeRef g D t) (hD : ∀ a ∈ t.addrs, D' (Place.of a) = D (Place.of a)) :
    Rep inodeRef g D' t :=
  h.imp fun u hu hrep => hrep.congr (hD u.addr hu)

theorem Ctx.rep_frame {e : ℕ} {c : Ctx Ext4Extent d e} (h : c.Around (RepAt inodeRef g D) u)
    (hD : ∀ a ∈ c.addrs, D' (Place.of a) = D (Place.of a)) : c.Around (RepAt inodeRef g D') u :=
  Ctx.around_imp h fun u hu hrep => hrep.congr (hD u.addr hu)

/-- The nodes around a hole name what is in it by its address. -/
theorem Ctx.rep_congr {e : ℕ} {c : Ctx Ext4Extent d e} {u u' : SepTree Ext4Extent d}
    (h : c.Around (RepAt inodeRef g D) u) (haddr : u'.addr = u.addr) :
    c.Around (RepAt inodeRef g D) u' := by
  refine Ctx.around_congr (r := fun t t' => t'.addr = t.addr) (fun _ _ _ => rfl)
    (fun f t t' hs hf => ?_) haddr h
  refine ⟨⟨hf.standing, hf.declares⟩, ?_⟩
  have hshows : (D.slots (Place.of f.addr)).map (·.child) =
      (f.left ++ (f.key, t) :: f.right).map fun c => (c.1, c.2.addr) := hf.entries
  show (D.slots (Place.of f.addr)).map (·.child) =
    (f.left ++ (f.key, t') :: f.right).map fun c => (c.1, c.2.addr)
  rw [hshows, List.map_append, List.map_append, List.map_cons, List.map_cons, hs]

/-! ## Reading the tree -/

theorem Disk.addr_tree (D : Disk) (d b : ℕ) : (D.tree d b).addr = b := by
  cases d <;> rfl

/-- The tree a disk represents is the one that is read. -/
theorem Rep.tree_eq (h : Rep inodeRef g D t) : D.tree d t.addr = t := by
  induction t with
  | leaf b es =>
      have hes : D.slots (Place.of b) = es := h.self.entries
      show SepTree.leaf b (D.slots (Place.of b)) = _
      rw [hes]
  | node b cs ih =>
      rcases SepTree.all_node.mp h with ⟨hb, hcs⟩
      have hmap : (D.slots (Place.of b)).map (·.child) = cs.map fun c => (c.1, c.2.addr) :=
        hb.entries
      show SepTree.node b ((D.slots (Place.of b)).map _) = _
      congr 1
      calc (D.slots (Place.of b)).map (fun e => (e.child.1, D.tree _ e.child.2))
          = ((D.slots (Place.of b)).map (·.child)).map fun x => (x.1, D.tree _ x.2) := by
            rw [List.map_map]; rfl
        _ = cs.map fun c => (c.1, D.tree _ c.2.addr) := by rw [hmap, List.map_map]; rfl
        _ = cs := by
            refine (List.map_congr_left fun c hc => ?_).trans (List.map_id cs)
            rw [ih c hc (hcs c hc)]
            rfl

/-- What is read is on the disk where its nodes stand. -/
theorem rep_tree : ∀ {d : ℕ} (b : ℕ), (D.tree d b).All (StandsAt inodeRef g D) →
    Rep inodeRef g D (D.tree d b) := by
  intro d
  induction d with
  | zero => exact fun b h => ⟨h, rfl⟩
  | succ d ih =>
      rintro b ⟨hstands, hcs⟩
      refine ⟨⟨hstands, ?_⟩, ?_⟩
      · show (D.slots (Place.of b)).map (·.child) = List.map _ (List.map _ _)
        rw [List.map_map]
        refine List.map_congr_left fun e _ => ?_
        show e.child = (e.child.1, (D.tree d e.child.2).addr)
        rw [D.addr_tree]
      · intro c hc
        obtain ⟨e, he, rfl⟩ := List.mem_map.mp hc
        exact ih _ (hcs _ (List.mem_map.mpr ⟨e, he, rfl⟩))

theorem Rep.stands (h : Rep inodeRef g D t) : t.All (StandsAt inodeRef g D) :=
  h.imp fun _ _ hu => hu.toStandsAt

theorem Rep.depth_eq (h : Rep inodeRef g D t) : (D.header (Place.of t.addr)).depth = d :=
  h.self.standing.depth

/-! ## No node is in a tree twice -/

/-- The tree below node `a`, as deep as its header says. -/
def Disk.treeAt (D : Disk) (a : ℕ) : SepTree Ext4Extent (D.header (Place.of a)).depth :=
  D.tree (D.header (Place.of a)).depth a

theorem Rep.depth_le (h : Rep inodeRef g D t) {a : ℕ} (ha : a ∈ t.addrs) :
    (D.header (Place.of a)).depth ≤ d := by
  induction t with
  | leaf b es =>
      obtain rfl := Multiset.mem_singleton.mp ha
      exact h.depth_eq.le
  | node b cs ih =>
      rcases SepTree.all_node.mp h with ⟨hb, hcs⟩
      rcases Multiset.mem_cons.mp ha with rfl | ha
      · exact hb.standing.depth.le
      · obtain ⟨c, hc, ha⟩ := SepTree.mem_sum_addrs.mp ha
        exact Nat.le_succ_of_le (ih c hc (hcs c hc) ha)

theorem Rep.treeAt_self (h : Rep inodeRef g D t) : (D.treeAt t.addr).items = t.items := by
  have hd := h.depth_eq
  unfold Disk.treeAt
  rw [hd, h.tree_eq]

/-- The tree below a node of `t` is a part of `t`. -/
theorem Rep.items_treeAt (h : Rep inodeRef g D t) {a : ℕ} (ha : a ∈ t.addrs) {e : Ext4Extent}
    (he : e ∈ (D.treeAt a).items) : e ∈ t.items := by
  induction t with
  | leaf b es =>
      obtain rfl := Multiset.mem_singleton.mp ha
      exact h.treeAt_self ▸ he
  | node b cs ih =>
      rcases Multiset.mem_cons.mp ha with rfl | ha
      · exact h.treeAt_self ▸ he
      · obtain ⟨c, hc, ha⟩ := SepTree.mem_sum_addrs.mp ha
        exact List.mem_flatMap.mpr ⟨c, hc, ih c hc ((SepTree.all_node.mp h).2 c hc) ha⟩

theorem Rep.treeAt_ne_nil (h : Rep inodeRef g D t) (hb : t.Bushy (· ≠ [])) {a : ℕ}
    (ha : a ∈ t.addrs) : (D.treeAt a).items ≠ [] := by
  induction t with
  | leaf b es =>
      obtain rfl := Multiset.mem_singleton.mp ha
      exact fun h0 => hb (h.treeAt_self.symm.trans h0)
  | node b cs ih =>
      rcases Multiset.mem_cons.mp ha with rfl | ha
      · exact fun h0 => Ctx.items_ne_nil_of_bushy hb (h.treeAt_self.symm.trans h0)
      · obtain ⟨c, hc, ha⟩ := SepTree.mem_sum_addrs.mp ha
        exact ih c hc ((SepTree.all_node.mp h).2 c hc) ((SepTree.all_node.mp hb).2 c hc) ha

/-- A node in two places would have its extents in both, but the extents of a tree are
sorted and disjoint. -/
theorem Rep.nodup (h : Rep inodeRef g D t) (hb : t.Bushy (· ≠ []))
    (hsorted : t.items.Pairwise fun e e' => stop e ≤ first e')
    (hpos : ∀ e ∈ t.items, first e < stop e) : t.addrs.Nodup := by
  induction t with
  | leaf b es => exact Multiset.nodup_singleton b
  | node b cs ih =>
      rcases SepTree.all_node.mp h with ⟨hrep, hcs⟩
      rcases SepTree.all_node.mp hb with ⟨-, hbs⟩
      rw [SepTree.addrs_node, Multiset.nodup_cons]
      constructor
      · -- the node itself is deeper than all below
        intro hmem
        obtain ⟨c, hc, ha⟩ := SepTree.mem_sum_addrs.mp hmem
        have hle := Rep.depth_le (hcs c hc) ha
        have hd : (D.header (Place.of b)).depth = _ := hrep.standing.depth
        omega
      rw [SepTree.items_node, List.pairwise_flatMap] at hsorted
      have hmem {c} (hc : c ∈ cs) {e : Ext4Extent} (he : e ∈ c.2.items) :
          e ∈ (SepTree.node b cs).items := List.mem_flatMap.mpr ⟨c, hc, he⟩
      refine SepTree.nodup_sum_addrs (fun c hc => ih c hc (hcs c hc) (hbs c hc) (hsorted.1 c hc)
        fun e he => hpos e (hmem hc he)) ?_
      refine List.Pairwise.imp_of_mem (fun {c k} hc hk hcross => ?_) hsorted.2
      rw [Multiset.disjoint_left]
      intro a ha ha'
      obtain ⟨e, he⟩ := List.exists_mem_of_ne_nil _ (Rep.treeAt_ne_nil (hcs c hc) (hbs c hc) ha)
      have he₁ : e ∈ c.2.items := Rep.items_treeAt (hcs c hc) ha he
      have he₂ : e ∈ k.2.items := Rep.items_treeAt (hcs k hk) ha' he
      exact absurd (hpos e (hmem hc he₁)) (Nat.not_lt.mpr (hcross e he₁ e he₂))

/-! ## Well-formed disks -/

/-- An extent the checks accept covers a block. -/
theorem first_lt_stop {e : Ext4Extent} (h : extentInRange inodeRef e = true) :
    first e < stop e := by
  have hlen := (extentInRange_iff.mp h).1
  rw [first_extent, stop_extent]
  omega

/-- The nodes of a tree whose nodes all have their children in the volume. -/
theorem inside_of_childrenIn (h : t.All (ChildrenIn inodeRef)) {a : ℕ} (ha : a ∈ t.addrs) :
    a = t.addr ∨ a ≠ 0 ∧ a < inodeRef.blocksCnt := by
  induction t with
  | leaf b es => exact Or.inl (Multiset.mem_singleton.mp ha)
  | node b cs ih =>
      rcases SepTree.all_node.mp h with ⟨hchildren, hcs⟩
      rcases Multiset.mem_cons.mp ha with rfl | ha
      · exact Or.inl rfl
      · obtain ⟨c, hc, ha⟩ := SepTree.mem_sum_addrs.mp ha
        rcases ih c hc (hcs c hc) ha with rfl | ha
        · exact Or.inr (hchildren c hc)
        · exact Or.inr ha

theorem childrenIn_of_inside (h0 : ∀ c ∈ t.addrs, c ≠ t.addr → c ≠ 0)
    (hnodup : t.addrs.Nodup) (h : ∀ a ∈ t.addrs, a ≠ 0 → a < inodeRef.blocksCnt) :
    t.All (ChildrenIn inodeRef) := by
  induction t with
  | leaf b es => trivial
  | node b cs ih =>
      rw [SepTree.addrs_node, Multiset.nodup_cons] at hnodup
      have hne {c} (hc : c ∈ cs) {a : ℕ} (ha : a ∈ c.2.addrs) : a ≠ 0 := by
        refine h0 a (SepTree.mem_addrs_node hc ha) fun hab => ?_
        obtain rfl : a = b := hab
        exact hnodup.1 (SepTree.mem_sum_addrs.mpr ⟨c, hc, ha⟩)
      refine SepTree.all_node.mpr ⟨fun c hc => ?_, fun c hc => ih c hc ?_ ?_ ?_⟩
      · have ha := SepTree.addr_mem_addrs c.2
        exact ⟨hne hc ha, h _ (SepTree.mem_addrs_node hc ha) (hne hc ha)⟩
      · exact fun a ha _ => hne hc ha
      · refine Multiset.nodup_of_le ?_ hnodup.2
        obtain ⟨l, r, rfl⟩ := List.append_of_mem hc
        rw [List.map_append, List.map_cons, List.sum_append, List.sum_cons]
        exact le_trans (Multiset.le_add_right _ _) (Multiset.le_add_left _ _)
      · exact fun a ha => h a (SepTree.mem_addrs_node hc ha)

theorem bushy_built : t.Bushy Grade.built.Holds ↔ t.Bushy (· ≠ []) := by
  have hat {d : ℕ} (u : SepTree Ext4Extent d) :
      SepTree.BushyAt Grade.built.Holds u ↔ SepTree.BushyAt (· ≠ []) u := by
    cases u with
    | leaf b es => exact ⟨fun h => h rfl, fun h _ => h⟩
    | node b cs => exact Iff.rfl
  exact ⟨fun h => h.imp fun u _ => (hat u).mp, fun h => h.imp fun u _ => (hat u).mpr⟩

theorem TreeOk.treeFit (h : TreeOk inodeRef g t) : TreeFit inodeRef g t :=
  ⟨h.addr, h.nodup, h.inside, h.ordered, h.bushy, h.inRange, SepTree.items_sorted h.sorted⟩

theorem TreeFit.treeOk (h : TreeFit inodeRef g t) (hsorted : t.marks.Pairwise (· ≤ ·)) :
    TreeOk inodeRef g t :=
  ⟨h.addr, h.nodup, h.inside, hsorted, h.ordered, h.bushy, h.inRange⟩

theorem TreeOk.ne_zero (h : TreeOk inodeRef g t) {a : ℕ} (hne : a ≠ t.addr) : a ≠ 0 :=
  fun h0 => hne (h0.trans h.addr.symm)

theorem WellFormed.coherent (h : WellFormed inodeRef D) : Coherent inodeRef D :=
  ⟨h.stands, h.bushy, h.ordered, h.sorted, h.children, fun e he => (h.extents e he).inRange⟩

theorem Coherent.wellFormed (h : Coherent inodeRef D)
    (hstop : ∀ e ∈ D.root.items, stop e ≤ uint32Max) : WellFormed inodeRef D :=
  ⟨h.stands, h.bushy, h.ordered, h.sorted, h.children,
    fun e he => ⟨h.inRange e he, hstop e he⟩⟩

/-- A coherent disk has its tree on it, every node once. -/
theorem Coherent.rep (h : Coherent inodeRef D) : Rep inodeRef .built D D.root :=
  rep_tree 0 h.stands

theorem Coherent.treeOk (h : Coherent inodeRef D) : TreeOk inodeRef .built D.root := by
  have haddr : D.root.addr = 0 := D.addr_tree _ 0
  refine ⟨haddr, ?_, ?_, h.sorted, h.ordered, h.bushy.imp id bushy_built.mpr, h.inRange⟩
  · rcases h.bushy with h0 | hb
    · unfold Disk.root
      rw [h0]
      exact Multiset.nodup_singleton 0
    · exact h.rep.nodup hb (SepTree.items_sorted h.sorted) fun e he => first_lt_stop (h.inRange e he)
  · intro a ha h0
    rcases inside_of_childrenIn h.children ha with rfl | hin
    · exact absurd haddr h0
    · exact hin.2

theorem WellFormed.rep (h : WellFormed inodeRef D) : Rep inodeRef .built D D.root :=
  h.coherent.rep

theorem WellFormed.treeOk (h : WellFormed inodeRef D) : TreeOk inodeRef .built D.root :=
  h.coherent.treeOk

theorem Rep.eq_root (h : Rep inodeRef g D t) (h0 : t.addr = 0) :
    ∃ hd : d = D.rootDepth, hd ▸ t = D.root := by
  have hd : (D.header .root).depth = d := by
    have := h.depth_eq
    rwa [h0] at this
  subst hd
  refine ⟨rfl, ?_⟩
  rw [← h.tree_eq, h0]
  rfl

/-- What is said of a tree on a disk is said of the tree below the root. -/
theorem Rep.items_root (h : Rep inodeRef g D t) (h0 : t.addr = 0) : D.root.items = t.items := by
  obtain ⟨rfl, heq⟩ := h.eq_root h0
  dsimp only at heq
  rw [heq]

/-- A tree on a disk is what the disk's coherence is about. -/
theorem coherent_of_treeOk (hrep : Rep inodeRef .built D t) (h : TreeOk inodeRef .built t) :
    Coherent inodeRef D := by
  obtain ⟨rfl, heq⟩ := hrep.eq_root h.addr
  dsimp only at heq
  subst heq
  refine ⟨hrep.stands, h.bushy.imp id bushy_built.mp, h.ordered, h.sorted, ?_, h.inRange⟩
  exact childrenIn_of_inside (fun a _ hne => h.ne_zero hne) h.nodup h.inside

theorem wellFormed_of_treeOk (hrep : Rep inodeRef .built D t) (h : TreeOk inodeRef .built t)
    (hstop : ∀ e ∈ t.items, stop e ≤ uint32Max) : WellFormed inodeRef D :=
  (coherent_of_treeOk hrep h).wellFormed (by rwa [hrep.items_root h.addr])

end Lemmas

end EspLwext4
