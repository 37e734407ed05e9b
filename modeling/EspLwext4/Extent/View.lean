import EspLwext4.Extent.Buffers

/-!
# The tree as its nodes decode

A node is its depth, its room and its entries; a disk is one node at every place. On such
a table a search passes a list of places, and the two ways in which `ensure_insert_room`
changes the tree, `grow_indepth` and `split_full_node`, are updates of three nodes at most.
-/

namespace EspLwext4

/-- A node as it decodes. Slot 0 is looked at also when there is no entry. -/
structure NodeView where
  depth : ℕ
  max : ℕ
  entries : List Ext4Extent
  slot : Ext4Extent

/-- A node at every place, in the tree or not. -/
abbrev TreeView : Type := Place → NodeView

def nodeView (d : Bytes) : NodeView :=
  ⟨(headerLoad d).depth, (headerLoad d).maxEntriesCount, slots d, extentLayout.get d 0⟩

def Disk.view (D : Disk) : TreeView := fun p => nodeView (D p)

/-- The entry of an index node that names `b` from the key `k` on. -/
def separator (k b : ℕ) : Ext4Extent := (indexStorePblock ⟨k, 0, 0, 0⟩ b).asExtent

namespace NodeView

/-- A node with the entries `es`. -/
def of (depth max : ℕ) (es : List Ext4Extent) : NodeView := ⟨depth, max, es, es.headD zeroExtent⟩

def Full (n : NodeView) : Prop := n.max ≤ n.entries.length

instance (n : NodeView) : Decidable n.Full := inferInstanceAs (Decidable (_ ≤ _))

def entry (n : NodeView) (i : ℕ) : Ext4Extent := n.entries.getD i n.slot

/-- The position a binary search for `lblock` stops at. -/
def chosen (n : NodeView) (lblock : ℕ) : ℕ :=
  bisect (fun i => (n.entry i).firstBlock) lblock n.entries.length 1 (n.entries.length - 1) - 1

def selected (n : NodeView) (lblock : ℕ) : Ext4Extent := n.entry (n.chosen lblock)

/-- The blocks an entry names: a run of data, or one child. -/
def run (n : NodeView) (e : Ext4Extent) : ℕ × ℕ :=
  if n.depth = 0 then (extentGetPblock e, extentGetActualLen e) else (indexGetPblock e.asIndex, 1)

/-- What `validate_entries` accepts of a node. -/
def runs (n : NodeView) : List (ℕ × ℕ) := n.entries.map n.run

/-- What `validate_selected_entry` accepts of a node. -/
def selectedRuns (n : NodeView) (lblock : ℕ) : List (ℕ × ℕ) :=
  if n.entries = [] then [] else [n.run (n.selected lblock)]

end NodeView

namespace TreeView

def set (T : TreeView) (p : Place) (n : NodeView) : TreeView := fun q => if q = p then n else T q

/-- The child a search for `lblock` goes to from `p`. -/
def child (T : TreeView) (lblock : ℕ) (p : Place) : Place :=
  .block (indexGetPblock ((T p).selected lblock).asIndex)

/-- The places a search passes, from `p` on and `d` levels down. -/
def way (T : TreeView) (lblock : ℕ) : (d : ℕ) → Place → List Place
  | 0, p => [p]
  | d + 1, p => p :: way T lblock d (T.child lblock p)

def search (T : TreeView) (lblock : ℕ) : List Place := T.way lblock (T .root).depth .root

/-- The leaf a search ends in. -/
def leaf (T : TreeView) (lblock : ℕ) : NodeView := T ((T.search lblock).getLastD .root)

/-- The first full node of some places in a row, and the one before it. -/
def firstFull (T : TreeView) : List Place → Option (Place × Place)
  | [] => none
  | [_] => none
  | p :: q :: ps => if (T q).Full then some (p, q) else firstFull T (q :: ps)

/-- `grow_indepth` with the new block `b` of `cap` entries. -/
def grown (T : TreeView) (cap b : ℕ) : TreeView :=
  let root := T .root
  (T.set (.block b) (.of root.depth cap root.entries)).set .root
    (.of (root.depth + 1) ext4ExtentRootMaxEntries [separator (firstKey root.entries) b])

/-- `split_full_node` of `node` below `parent` with the new block `b` of `cap` entries. -/
def split (T : TreeView) (cap b : ℕ) (parent node : Place) : TreeView :=
  let n := (T node).entries.length
  -- the new block is cleared before the upper half is read, so a block in use loses it
  let entries := if node = .block b then List.replicate n zeroExtent else (T node).entries
  let right := entries.drop (n / 2)
  let upper := (T parent).entries
  let pos := separatorPos (upper.map (·.asIndex)) (firstKey right)
  ((T.set (.block b) (.of (T node).depth cap right)).set parent
    (.of (T parent).depth (T parent).max
      (upper.insertIdx pos (separator (firstKey right) b)))).set node
    (.of (T node).depth (T node).max (entries.take (n / 2)))

/-- One attempt of `ensure_insert_room` that gets the block `b`. -/
def restructured (cap lblock : ℕ) (T : TreeView) (b : ℕ) : TreeView :=
  if (T .root).Full then T.grown cap b
  else
    match T.firstFull (T.search lblock) with
    | some (parent, node) => T.split cap b parent node
    | none => T

/-- The runs that a search accepts: all of the root, and the entries it follows. -/
def searched (T : TreeView) (lblock : ℕ) : List (ℕ × ℕ) :=
  (T .root).runs ++ (T.search lblock).flatMap fun p => (T p).selectedRuns lblock

/-- The runs that `split_full_node` accepts when it checks the node and its parent again. -/
def rechecked (T : TreeView) (lblock : ℕ) : List (ℕ × ℕ) :=
  if (T .root).Full then []
  else
    match T.firstFull (T.search lblock) with
    | some (parent, node) => (T node).runs ++ if parent = .root then [] else (T parent).runs
    | none => []

/-- The runs that `ensure_insert_room` accepts when it gets the blocks `bs` one by one. -/
def accepted (cap lblock : ℕ) : List ℕ → TreeView → List (ℕ × ℕ)
  | [], T => T.searched lblock
  | b :: bs, T =>
      T.searched lblock ++ T.rechecked lblock ++ accepted cap lblock bs (restructured cap lblock T b)

end TreeView

section Lemmas

variable {inodeRef : InodeRef} {D : Disk} {T : TreeView} {d : Bytes} {h : Ext4ExtentHeader}
variable {es : List Ext4Extent} {p q : Place} {lblock b b' n pos : ℕ} {n₀ : NodeView}
variable {node leaf : ExtentPathNode} {ns : List ExtentPathNode} {path : ExtentSearchPath}

@[simp] theorem TreeView.set_self : T.set p n₀ p = n₀ := if_pos rfl

theorem TreeView.set_ne (hq : q ≠ p) : T.set p n₀ q = T q := if_neg hq

theorem Disk.view_set (D : Disk) (p : Place) (d : Bytes) :
    (D.set p d).view = D.view.set p (nodeView d) := by
  funext q
  unfold view Disk.set TreeView.set
  split <;> rfl

/-- A node with an entry is its header and its entries. -/
theorem nodeView_eq (hh : headerLoad d = h) (hs : slots d = es) (hne : es ≠ []) :
    nodeView d = .of h.depth h.maxEntriesCount es := by
  subst hh hs
  unfold nodeView NodeView.of
  congr 1
  have h0 : 0 < (slots d).length := List.length_pos_iff.mpr hne
  rw [List.headD_eq_head?_getD, List.head?_eq_getElem?, List.getElem?_eq_getElem h0]
  exact (extentLayout.getElem_records h0).symm

/-! ## Where a search stops -/

theorem bisect_congr {key key' : ℕ → ℕ} {v : ℕ} : ∀ (fuel l r : ℕ),
    (∀ i, l ≤ i → i ≤ r → key i = key' i) → bisect key v fuel l r = bisect key' v fuel l r
  | 0, _, _, _ => rfl
  | fuel + 1, l, r, h => by
      rw [bisect_succ, bisect_succ]
      split
      · rw [h (l + (r - l) / 2) (by omega) (by omega),
          bisect_congr fuel l _ fun i h₁ h₂ => h i h₁ (by omega),
          bisect_congr fuel _ r fun i h₁ h₂ => h i (by omega) h₂]
      · rfl

theorem Disk.view_entry {i : ℕ} (hi : i < (D.header p).entriesCount) :
    (D.view p).entry i = D.extent p i := by
  have hget := D.getElem?_slots (p := p) hi
  show (D.slots p).getD i _ = _
  rw [List.getD_eq_getElem?_getD, hget]
  rfl

theorem Disk.length_view : (D.view p).entries.length = (D.header p).entriesCount := D.length_slots

theorem Disk.view_ne_nil (h0 : 0 < (D.header p).entriesCount) : (D.view p).entries ≠ [] :=
  List.length_pos_iff.mp (by rwa [D.length_view])

theorem Disk.view_full : (D.view p).Full ↔
    (D.header p).maxEntriesCount ≤ (D.header p).entriesCount := by
  unfold NodeView.Full
  rw [D.length_view]
  rfl

/-- The search of the code and the one of the table stop at the same entry. -/
theorem Chosen.view (hc : Chosen D p (D.header p).entriesCount lblock pos) :
    (D.view p).selected lblock = D.extent p pos := by
  have hkeys : bisect (fun i => ((D.view p).entry i).firstBlock) lblock
      (D.view p).entries.length 1 ((D.view p).entries.length - 1) = pos + 1 := by
    rw [D.length_view, ← hc.probed]
    have := hc.lt
    refine bisect_congr _ _ _ fun i _ hi => ?_
    rw [D.view_entry (by omega)]
    rfl
  unfold NodeView.selected NodeView.chosen
  rw [hkeys, Nat.add_sub_cancel, D.view_entry hc.lt]

/-- Without entries it is slot 0. -/
theorem Disk.view_selected_empty (h0 : (D.header p).entriesCount = 0) :
    (D.view p).selected lblock = D.extent p 0 := by
  have hnil : (D.view p).entries = [] := List.length_eq_zero_iff.mp (by rw [D.length_view, h0])
  unfold NodeView.selected NodeView.entry
  rw [hnil]
  rfl

theorem LevelOk.view {e : ℕ} (h : LevelOk inodeRef D lblock e b node) :
    (D.view (Place.of b)).selected lblock = D.extent (Place.of b) node.position := by
  have hc := h.chosen
  rw [h.header] at hc
  exact hc.view

theorem LevelOk.view_child {e : ℕ} (h : LevelOk inodeRef D lblock e b node) :
    D.view.child lblock (Place.of b) = Place.of node.pblock := by
  unfold TreeView.child
  rw [h.view, ← D.index_eq, ← h.index, ← h.pblock, Place.of_ne_zero h.child.1]

theorem LeafOk.view (h : LeafOk inodeRef D lblock b leaf) :
    (D.view (Place.of b)).selected lblock = leaf.extent := by
  rw [h.extent]
  rcases Nat.eq_zero_or_pos leaf.header.entriesCount with h0 | h0
  · have h0' : (D.header (Place.of b)).entriesCount = 0 := h.header ▸ h0
    rw [D.view_selected_empty h0', h.empty h0]
  · have hc := h.chosen h0
    rw [h.header] at hc
    exact hc.view

/-! ## The places of a path -/

theorem Levels.view {e e' : ℕ} (h : Levels inodeRef D lblock e b ns e' b') (he : e' = 0) :
    D.view.way lblock e (Place.of b) = ns.map (·.place) ++ [Place.of b'] := by
  induction h with
  | nil e b =>
      subst he
      rfl
  | cons hl _ ih =>
      rw [TreeView.way, hl.view_child, ih he]
      simp only [List.map_cons, List.cons_append, ExtentPathNode.place, hl.pblockOfNode]

theorem PathOk.view_search (h : PathOk inodeRef D lblock path ns leaf) :
    D.view.search lblock = ns.map (·.place) ++ [leaf.place] := h.levels.view rfl

theorem PathOk.view_path (h : PathOk inodeRef D lblock path ns leaf) :
    D.view.search lblock = path.path.map (·.place) := by
  rw [h.view_search, h.nodes]
  simp

theorem PathOk.view_leaf (h : PathOk inodeRef D lblock path ns leaf) :
    D.view.leaf lblock = D.view leaf.place := by
  unfold TreeView.leaf
  rw [h.view_search, List.getLastD_concat]

/-- The runs that the checks of a search accept. -/
theorem PathOk.view_searched (h : PathOk inodeRef D lblock path ns leaf) :
    D.view.searched lblock = (D.view .root).runs ++ (ns.map fun n => (n.pblock, 1)) ++
      if 0 < leaf.header.entriesCount then
        [(extentGetPblock leaf.extent, extentGetActualLen leaf.extent)] else [] := by
  have hleaf := h.leafOk
  have hend : (D.view leaf.place).selectedRuns lblock = if 0 < leaf.header.entriesCount then
      [(extentGetPblock leaf.extent, extentGetActualLen leaf.extent)] else [] := by
    unfold NodeView.selectedRuns
    split_ifs with h0 h1 h1
    · exact absurd h0 (D.view_ne_nil (hleaf.header ▸ h1))
    · rfl
    · rw [show leaf.place = Place.of leaf.pblockOfNode from rfl, hleaf.view]
      exact congrArg (fun r => [r]) (if_pos hleaf.depth)
    · refine absurd (List.length_eq_zero_iff.mp ?_) h0
      rw [D.length_view]
      have := hleaf.header ▸ h1
      exact Nat.eq_zero_of_not_pos this
  have hlevels : (ns.map (·.place)).flatMap (fun p => (D.view p).selectedRuns lblock) =
      ns.map fun n => (n.pblock, 1) := by
    rw [List.flatMap_map, List.map_eq_flatMap]
    refine List.flatMap_congr fun n hn => ?_
    obtain ⟨d, b, hl⟩ := h.levels.mem n hn
    have hplace : n.place = Place.of b := by rw [ExtentPathNode.place, hl.pblockOfNode]
    have hpos : 0 < (D.header (Place.of b)).entriesCount := by
      have := hl.chosen.lt
      rw [hl.header] at this
      omega
    have hindex : (D.view (Place.of b)).depth ≠ 0 := by
      show (D.header (Place.of b)).depth ≠ 0
      rw [hl.depth]
      exact Nat.succ_ne_zero d
    unfold NodeView.selectedRuns NodeView.run
    rw [hplace, if_neg (D.view_ne_nil hpos), if_neg hindex, hl.view, ← D.index_eq, ← hl.index,
      ← hl.pblock]
  unfold TreeView.searched
  rw [h.view_search, List.flatMap_append, hlevels, List.append_assoc]
  simp [hend]

end Lemmas

end EspLwext4
