import EspLwext4.Extent.Buffers

/-!
# Keys and the first extents below them

The key of an index entry says from where on a search goes down there, and nothing in the
code compares it with the first extent below. `KeysBelow` says that no key lies above that
extent. A removal takes entries out of the nodes of one path; what it leaves passes the checks
only if the node passed them before, so that it makes no such key.
-/

namespace EspLwext4

open Prog Bytes

variable (inodeRef : InodeRef)

/-- Node `b`, `d` levels above the leaves, hangs on the root by nodes that a search stands on. -/
inductive Linked (D : Disk) : ℕ → ℕ → Prop
  | root : Linked D (D.header .root).depth 0
  | child {d b j : ℕ} (h : Linked D (d + 1) b) (hs : Standing inodeRef D (d + 1) b)
      (hj : j < (D.header (Place.of b)).entriesCount) :
      Linked D d (indexGetPblock (D.index (Place.of b) j))

/-- Where the first extent below block `b` starts. -/
def Disk.firstBelow (D : Disk) (d b : ℕ) : ℕ := (D.leftmostExtent d b).firstBlock

/-- No key above `f` is greater than the first extent below it. Entry 0 of a node is left out, as
a search goes there for any key, and so is a subtree whose left edge fails the checks. -/
def KeysBelow (D : Disk) (f : ℕ) : Prop :=
  ∀ d b j, Linked inodeRef D (d + 1) b → Standing inodeRef D (d + 1) b → 0 < j →
    j < (D.header (Place.of b)).entriesCount → f < D.key (Place.of b) j →
    EdgeOk inodeRef D d (indexGetPblock (D.index (Place.of b) j)) →
    D.key (Place.of b) j ≤ D.firstBelow d (indexGetPblock (D.index (Place.of b) j))

/-- `D'` is `D` but for the node at `p`, which has the entries `es` now. -/
structure Relisting (D D' : Disk) (p : Place) (es : List Ext4Extent) : Prop where
  others : ∀ q, q ≠ p → D' q = D q
  header : D'.header p = (D.header p).withCount es.length
  slots : D'.slots p = es

/-- The key `v` of an entry with the child `b` is at most `g`, or not above the first extent
below. -/
def KeyBelow (D : Disk) (g d b v : ℕ) : Prop :=
  g < v → EdgeOk inodeRef D d b → v ≤ D.firstBelow d b

/-- The left edge below `b` passes the checks, and its first extent starts at or before `g`. -/
structure LowEdge (D : Disk) (g d b : ℕ) : Prop where
  edge : EdgeOk inodeRef D d b
  low : D.firstBelow d b ≤ g

/-- The node at `p` lies below level `d` and was emptied. -/
structure Emptied (D₀ D : Disk) (d : ℕ) (p : Place) : Prop where
  count : (D.header p).entriesCount = 0
  node : ∃ b e, p = Place.of b ∧ e < d ∧ Standing inodeRef D₀ e b
  depth : (D.header p).depth = (D₀.header p).depth

/-- `D` is `D₀` with some nodes below level `d` emptied. -/
def EmptiedBelow (D₀ D : Disk) (d : ℕ) : Prop := ∀ p, D p = D₀ p ∨ Emptied inodeRef D₀ D d p

/-- Entry `x` of the node `b` was taken out, or trimmed in a leaf, or got another key: the
entries `m` are in its place. -/
structure NodeEdit (g : ℕ) (D₀ D : Disk) (d b : ℕ) (l : List Ext4Extent) (x : Ext4Extent)
    (m r : List Ext4Extent) : Prop where
  standing : Standing inodeRef D₀ d b
  depth : (D.header (Place.of b)).depth = d
  before : D₀.slots (Place.of b) = l ++ x :: r
  after : D.slots (Place.of b) = l ++ m ++ r
  selected : SelectedOk inodeRef D₀ (Place.of b) (D₀.header (Place.of b)) l.length
  edit : (d = 0 ∨ m = []) ∧
      (l = [] → b ≠ 0 → LeftmostOk inodeRef D₀ d b → LowEdge inodeRef D₀ g d b) ∨
    ∃ e y, d = e + 1 ∧ m = [y] ∧ indexGetPblock y.asIndex = indexGetPblock x.asIndex ∧
      (l ≠ [] → KeyBelow inodeRef D g e (indexGetPblock y.asIndex) y.firstBlock)

/-- Entry `i` of the node at `p` is an entry of the node in `D₀`, not entry 0 unless it is that
itself, and its key is the old one or not above the first extent below. -/
def EntryKept (g : ℕ) (D₀ D : Disk) (d : ℕ) (p : Place) (i : ℕ) : Prop :=
  ∃ j < (D₀.header p).entriesCount,
    indexGetPblock (D.index p i) = indexGetPblock (D₀.index p j) ∧
    (0 < i → 0 < j ∧ (D.key p i = D₀.key p j ∨
      KeyBelow inodeRef D g d (indexGetPblock (D.index p i)) (D.key p i)))

/-- The first entry of block `b` leads where it led, unless the first extent below it started at
or before `g`. -/
def FirstKept (g : ℕ) (D₀ D : Disk) (d b : ℕ) : Prop :=
  D.extent (.block b) 0 = D₀.extent (.block b) 0 ∨
    0 < d ∧ indexGetPblock (D.index (.block b) 0) = indexGetPblock (D₀.index (.block b) 0) ∨
    LowEdge inodeRef D₀ g d b

/-- Entries of the nodes of `D₀` were taken out, or got other keys, and every node that passes
the checks passed them before. -/
structure Shrunk (g : ℕ) (D₀ D : Disk) : Prop where
  root : (D.header .root).depth = (D₀.header .root).depth
  standing : ∀ {d b}, Standing inodeRef D d b → Standing inodeRef D₀ d b
  entries : ∀ {d b i}, Standing inodeRef D (d + 1) b → i < (D.header (Place.of b)).entriesCount →
    EntryKept inodeRef g D₀ D d (Place.of b) i
  leftmost : ∀ {d b}, LeftmostOk inodeRef D d b →
    LeftmostOk inodeRef D₀ d b ∧ FirstKept inodeRef g D₀ D d b

section Lemmas

variable {inodeRef} {D D₀ D' : Disk} {g f d e b : ℕ} {p : Place} {es l m r : List Ext4Extent}
variable {x y : Ext4Extent}

theorem Linked.depth_le (h : Linked inodeRef D d b) : d ≤ (D.header .root).depth := by
  induction h with
  | root => exact Nat.le_refl _
  | child _ _ _ ih => exact Nat.le_of_succ_le ih

/-- Only the root is as high as the root. -/
theorem Linked.eq_root (h : Linked inodeRef D d b) (hd : d = (D.header .root).depth) : b = 0 := by
  cases h with
  | root => rfl
  | child h _ _ =>
      have := h.depth_le
      omega

/-- A root that is a leaf has no keys. -/
theorem keysBelow_of_depth (h : (D.header .root).depth = 0) : KeysBelow inodeRef D f := by
  intro d b j hlinked
  have := hlinked.depth_le
  omega

theorem KeysBelow.mono (h : KeysBelow inodeRef D f) (hle : f ≤ g) : KeysBelow inodeRef D g :=
  fun d b j hl hs h0 hj hkey => h d b j hl hs h0 hj (Nat.lt_of_le_of_lt hle hkey)

theorem Disk.firstBelow_succ : D.firstBelow (d + 1) b =
    D.firstBelow d (indexGetPblock (D.index (.block b) 0)) := rfl

theorem EdgeOk.leftmostOk (h : EdgeOk inodeRef D d b) : LeftmostOk inodeRef D d b := by
  cases d with
  | zero => exact h
  | succ d => exact h.1

/-- The nodes of a path are linked. -/
theorem Levels.linked {lblock top a : ℕ} {ns : List ExtentPathNode}
    (h : Levels inodeRef D lblock top a ns d b) (ha : Linked inodeRef D top a) :
    Linked inodeRef D d b := by
  induction h with
  | nil => exact ha
  | cons hl _ ih =>
      refine ih ?_
      rw [hl.pblock, hl.index]
      refine ha.child hl.toStanding ?_
      rw [← hl.header]
      exact hl.chosen.lt

/-- The last node of a path and the ones above it. -/
theorem Levels.of_concat {lblock top a : ℕ} {n : ExtentPathNode} {ns : List ExtentPathNode} :
    Levels inodeRef D lblock top a (ns ++ [n]) d b →
      Levels inodeRef D lblock top a ns (d + 1) n.pblockOfNode ∧
        LevelOk inodeRef D lblock d n.pblockOfNode n ∧ b = n.pblock := by
  induction ns generalizing top a with
  | nil =>
      intro h
      obtain ⟨e, rfl, hl, ht⟩ := h.of_cons
      obtain ⟨rfl, rfl⟩ := ht.of_nil
      rw [hl.pblockOfNode]
      exact ⟨.nil _ _, hl.pblockOfNode ▸ hl, rfl⟩
  | cons n' ns ih =>
      intro h
      obtain ⟨e, rfl, hl, ht⟩ := h.of_cons
      obtain ⟨h₁, h₂, h₃⟩ := ih ht
      exact ⟨.cons hl h₁, h₂, h₃⟩

/-- A path goes down one level a step. -/
theorem Levels.depth_lt {lblock top a : ℕ} {ns : List ExtentPathNode}
    (h : Levels inodeRef D lblock top a ns d b) : ∀ n ∈ ns, d < (D.header n.place).depth := by
  induction h with
  | nil => simp
  | cons hl ht ih =>
      intro n hn
      rcases List.mem_cons.mp hn with rfl | hn
      · have := ht.length
        rw [ExtentPathNode.place, hl.pblockOfNode, hl.depth]
        omega
      · exact ih n hn

/-! ## Sorted entries -/

/-- An entry between its neighbours keeps the list sorted. -/
theorem pairwise_insert {α : Type} {R : α → α → Prop} [Trans R R R] {l r : List α} {x : α}
    (h : (l ++ r).Pairwise R) (hl : ∀ y ∈ l.getLast?, R y x) (hr : ∀ y ∈ r.head?, R x y) :
    (l ++ x :: r).Pairwise R := by
  rw [← List.isChain_iff_pairwise, List.isChain_append] at h ⊢
  refine ⟨h.1, List.isChain_cons.mpr ⟨hr, h.2.1⟩, fun y hy z hz => ?_⟩
  obtain rfl : x = z := Option.some.inj hz
  exact hl y hy

instance : Trans (fun e e' : Ext4Extent => e.firstBlock + extentGetActualLen e ≤ e'.firstBlock)
    (fun e e' : Ext4Extent => e.firstBlock + extentGetActualLen e ≤ e'.firstBlock)
    (fun e e' : Ext4Extent => e.firstBlock + extentGetActualLen e ≤ e'.firstBlock) :=
  ⟨fun h h' => Nat.le_trans h (Nat.le_trans (Nat.le_add_right _ _) h')⟩

/-- The entry at a place of the list. -/
theorem Disk.extent_of_slots (h : D.slots p = l ++ x :: r) : D.extent p l.length = x := by
  have hlt : l.length < (D.slots p).length := by simp [h]
  rw [← Disk.getElem_slots hlt]
  simp [h]

theorem Disk.extent_zero (h : D.slots p = x :: r) : D.extent p 0 = x :=
  Disk.extent_of_slots (l := []) h

/-- What `validate_selected_entry` checks of the entry between `l` and `r`. -/
theorem SelectedOk.between (h : SelectedOk inodeRef D p (D.header p) l.length)
    (hs : D.slots p = l ++ x :: r) :
    if (D.header p).depth = 0 then
      extentInRange inodeRef x = true ∧
      (∀ y ∈ l.getLast?, y.firstBlock + extentGetActualLen y ≤ x.firstBlock) ∧
      ∀ y ∈ r.head?, x.firstBlock + extentGetActualLen x ≤ y.firstBlock
    else
      childInRange inodeRef x.asIndex = true ∧
      (∀ y ∈ l.getLast?, y.firstBlock < x.firstBlock) ∧
      ∀ y ∈ r.head?, x.firstBlock < y.firstBlock := by
  obtain ⟨hpos, hsel⟩ := h
  have hget := Disk.extent_of_slots hs
  have hlast : ∀ y ∈ l.getLast?, 0 < l.length ∧ D.extent p (l.length - 1) = y := by
    intro y hy
    rw [List.getLast?_eq_getElem?] at hy
    obtain ⟨hlt, -⟩ := List.getElem?_eq_some_iff.mp hy
    have := Disk.getElem?_slots (D := D) (p := p) (i := l.length - 1) (by omega)
    rw [hs, List.getElem?_append_left hlt, hy] at this
    exact ⟨by omega, (Option.some.inj this).symm⟩
  have hhead : ∀ y ∈ r.head?, l.length + 1 < (D.header p).entriesCount ∧
      D.extent p (l.length + 1) = y := by
    intro y hy
    obtain ⟨r, rfl⟩ := List.head?_eq_some_iff.mp hy
    have hlt : l.length + 1 < (D.header p).entriesCount := by
      rw [← Disk.length_slots, hs, List.length_append, List.length_cons, List.length_cons]
      omega
    have := Disk.getElem?_slots hlt
    rw [hs, List.getElem?_append_right (by omega)] at this
    exact ⟨hlt, (Option.some.inj (by simpa using this)).symm⟩
  simp only [← Disk.extent_firstBlock, hget] at hsel
  split at hsel
  · rename_i hd
    rw [if_pos hd]
    refine ⟨hsel.1, fun y hy => ?_, fun y hy => ?_⟩
    · obtain ⟨h0, rfl⟩ := hlast y hy
      exact hsel.2.1 h0
    · obtain ⟨hlt, rfl⟩ := hhead y hy
      exact hsel.2.2 hlt
  · rename_i hd
    rw [if_neg hd]
    rw [D.index_eq, hget] at hsel
    refine ⟨hsel.1, fun y hy => ?_, fun y hy => ?_⟩
    · obtain ⟨h0, rfl⟩ := hlast y hy
      exact hsel.2.1 h0
    · obtain ⟨hlt, rfl⟩ := hhead y hy
      exact hsel.2.2 hlt

theorem entriesOk_iff : EntriesOk inodeRef D p (D.header p) ↔
    if (D.header p).depth = 0 then LeafEntriesOk inodeRef (D.slots p)
    else IndexEntriesOk inodeRef ((D.slots p).map (·.asIndex)) := by
  rw [← Disk.indexes_eq]
  rfl

/-- Entries that pass the checks passed them with one more that passed its own. -/
theorem SelectedOk.entriesOk (hsel : SelectedOk inodeRef D p (D.header p) l.length)
    (hs : D.slots p = l ++ x :: r) (hslots : D'.slots p = l ++ m ++ r)
    (hdepth : (D'.header p).depth = (D.header p).depth)
    (hok : EntriesOk inodeRef D' p (D'.header p)) : EntriesOk inodeRef D p (D.header p) := by
  have hbetween := hsel.between hs
  have hsub : (l ++ r).Sublist (l ++ m ++ r) :=
    List.Sublist.append_right (List.sublist_append_left l m) r
  rw [entriesOk_iff] at hok ⊢
  rw [hdepth, hslots] at hok
  rw [hs]
  split at hbetween
  · rename_i hd
    rw [if_pos hd] at hok ⊢
    refine ⟨fun y hy => ?_, pairwise_insert (hok.sorted.sublist hsub) hbetween.2.1 hbetween.2.2⟩
    rcases List.mem_append.mp hy with hy | hy
    · exact hok.inRange y (by simp [hy])
    · rcases List.mem_cons.mp hy with rfl | hy
      · exact hbetween.1
      · exact hok.inRange y (by simp [hy])
  · rename_i hd
    rw [if_neg hd] at hok ⊢
    obtain ⟨hrange, hsorted⟩ := hok
    rw [List.forall_mem_map] at hrange
    rw [List.pairwise_map] at hsorted
    have htrans : Trans (fun e e' : Ext4Extent => e.firstBlock < e'.firstBlock)
        (fun e e' : Ext4Extent => e.firstBlock < e'.firstBlock)
        (fun e e' : Ext4Extent => e.firstBlock < e'.firstBlock) := ⟨Nat.lt_trans⟩
    refine ⟨List.forall_mem_map.mpr fun y hy => ?_, List.pairwise_map.mpr ?_⟩
    · rcases List.mem_append.mp hy with hy | hy
      · exact hrange y (by simp [hy])
      · rcases List.mem_cons.mp hy with rfl | hy
        · exact hbetween.1
        · exact hrange y (by simp [hy])
    · exact pairwise_insert (R := fun e e' : Ext4Extent => e.firstBlock < e'.firstBlock)
        (hsorted.sublist hsub) hbetween.2.1 hbetween.2.2

/-! ## Edges that a removal leaves -/

theorem LeftmostOk.congr (h : LeftmostOk inodeRef D' d b) (hb : D' (.block b) = D (.block b)) :
    LeftmostOk inodeRef D d b := by
  obtain ⟨h₁, h₂, h₃, h₄, h₅⟩ := h
  unfold EntriesOk Disk.extents Disk.indexes at h₄
  unfold Disk.header at h₁ h₂ h₄ h₅
  rw [hb] at h₁ h₂ h₃ h₄ h₅
  exact ⟨h₁, h₂, h₃, h₄, h₅⟩

/-- A left edge below the level of the only node that changed. -/
theorem EdgeOk.frame (hD : ∀ q, q ≠ p → D' q = D q) : ∀ {d b : ℕ},
    d < (D'.header p).depth → EdgeOk inodeRef D' d b →
    EdgeOk inodeRef D d b ∧ D'.leftmostExtent d b = D.leftmostExtent d b
  | 0, b, hlt, hok => by
      have hb : D' (.block b) = D (.block b) := hD _ (by
        rintro rfl
        rw [hok.depth] at hlt
        exact absurd hlt (Nat.lt_irrefl 0))
      refine ⟨hok.congr hb, ?_⟩
      unfold Disk.leftmostExtent Disk.extent
      rw [hb]
  | d + 1, b, hlt, ⟨hok, hbelow⟩ => by
      have hb : D' (.block b) = D (.block b) := hD _ (by
        rintro rfl
        rw [hok.depth] at hlt
        exact absurd hlt (Nat.lt_irrefl _))
      have hindex : D'.index (.block b) 0 = D.index (.block b) 0 := by
        unfold Disk.index
        rw [hb]
      rw [hindex] at hbelow
      obtain ⟨h₁, h₂⟩ := EdgeOk.frame hD (Nat.lt_of_succ_lt hlt) hbelow
      refine ⟨⟨hok.congr hb, h₁⟩, ?_⟩
      unfold Disk.leftmostExtent
      rw [hindex]
      exact h₂

/-! ## One edited node -/

/-- The same entry in two lists. -/
theorem Disk.extent_eq {i j : ℕ} (hi : i < (D.header p).entriesCount)
    (h : (D.slots p)[i]? = (D₀.slots p)[j]?) :
    j < (D₀.header p).entriesCount ∧ D.extent p i = D₀.extent p j := by
  rw [Disk.getElem?_slots hi] at h
  obtain ⟨hj, hget⟩ := List.getElem?_eq_some_iff.mp h.symm
  rw [Disk.getElem_slots] at hget
  rw [Disk.length_slots] at hj
  exact ⟨hj, hget.symm⟩

/-- An entry of the list without `x` is one of the list with it, no further to the left. -/
theorem getElem?_without (l r : List Ext4Extent) (x : Ext4Extent) (i : ℕ) :
    ∃ j, i ≤ j ∧ (l ++ r)[i]? = (l ++ x :: r)[j]? := by
  by_cases h : i < l.length
  · exact ⟨i, Nat.le_refl i, by rw [List.getElem?_append_left h, List.getElem?_append_left h]⟩
  · refine ⟨i + 1, Nat.le_succ i, ?_⟩
    rw [List.getElem?_append_right (by omega), List.getElem?_append_right (by omega),
      Nat.succ_sub (by omega), List.getElem?_cons_succ]

theorem getElem?_replaced {i : ℕ} (h : i ≠ l.length) : (l ++ y :: r)[i]? = (l ++ x :: r)[i]? := by
  have hset : l ++ y :: r = (l ++ x :: r).set l.length y := by simp
  rw [hset, List.getElem?_set_ne (Ne.symm h)]

section NodeEdit

variable (h : NodeEdit inodeRef g D₀ D d b l x m r)

include h

theorem NodeEdit.entries {i : ℕ} (hd : d = e + 1) (hi : i < (D.header (Place.of b)).entriesCount) :
    EntryKept inodeRef g D₀ D e (Place.of b) i := by
  -- an entry that stayed leads where it led
  have stayed {j : ℕ} (hle : i ≤ j)
      (hget : (D.slots (Place.of b))[i]? = (D₀.slots (Place.of b))[j]?) :
      EntryKept inodeRef g D₀ D e (Place.of b) i := by
    obtain ⟨hj, he⟩ := Disk.extent_eq hi hget
    refine ⟨j, hj, by rw [D.index_eq, D₀.index_eq, he], fun h0 => ⟨Nat.lt_of_lt_of_le h0 hle, ?_⟩⟩
    exact Or.inl (congrArg (·.firstBlock) he)
  rcases h.edit with ⟨hm, -⟩ | ⟨e', y, he, hm, hchild, hcov⟩
  · have hm := hm.resolve_left (by omega)
    obtain ⟨j, hle, hget⟩ := getElem?_without l r x i
    refine stayed hle ?_
    rw [h.after, h.before, hm, List.append_nil, hget]
  · obtain rfl : e = e' := by omega
    have hafter : D.slots (Place.of b) = l ++ y :: r := by
      rw [h.after, hm, List.append_assoc, List.singleton_append]
    by_cases hil : i = l.length
    · have hy := Disk.extent_of_slots hafter
      have hx := Disk.extent_of_slots h.before
      refine ⟨l.length, ?_, ?_, fun h0 => ⟨hil ▸ h0, Or.inr ?_⟩⟩
      · rw [← Disk.length_slots, h.before, List.length_append, List.length_cons]
        omega
      · rw [hil, D.index_eq, D₀.index_eq, hx, hy, hchild]
      · rw [hil, D.index_eq, ← Disk.extent_firstBlock, hy]
        exact hcov (List.ne_nil_of_length_pos (hil ▸ h0))
    · refine stayed (Nat.le_refl i) ?_
      rw [hafter, h.before, getElem?_replaced hil]

theorem NodeEdit.leftmost (hb : b ≠ 0) (hok : LeftmostOk inodeRef D d b) :
    LeftmostOk inodeRef D₀ d b ∧ FirstKept inodeRef g D₀ D d b := by
  obtain ⟨⟨h₁, h₂, h₃⟩, hdepth, hbefore, hafter, hsel, hedit⟩ := h
  rw [Place.of_ne_zero hb] at h₁ h₂ h₃ hdepth hbefore hafter hsel
  have hpos := hsel.1
  have hok₀ : LeftmostOk inodeRef D₀ d b :=
    ⟨h₁, h₂, h₃ hb, hsel.entriesOk hbefore hafter (hdepth.trans h₂.symm) hok.entries, by omega⟩
  refine ⟨hok₀, ?_⟩
  cases l with
  | cons z l =>
      have hz : D.extent (.block b) 0 = z := Disk.extent_zero hafter
      exact Or.inl (hz.trans (Disk.extent_zero hbefore).symm)
  | nil =>
      rcases hedit with ⟨-, hleft⟩ | ⟨e', y, rfl, rfl, hchild, -⟩
      · exact Or.inr (Or.inr (hleft rfl hb hok₀))
      · refine Or.inr (Or.inl ⟨Nat.zero_lt_succ _, ?_⟩)
        have hy : D.extent (.block b) 0 = y := Disk.extent_zero hafter
        have hx : D₀.extent (.block b) 0 = x := Disk.extent_zero hbefore
        rw [D.index_eq, D₀.index_eq, hx, hy, hchild]

/-- An edit of one node over others that were emptied. -/
theorem Shrunk.of_edit (hlow : ∀ q, q ≠ Place.of b → D q = D₀ q ∨ Emptied inodeRef D₀ D d q) :
    Shrunk inodeRef g D₀ D := by
  have hdepth : (D.header (Place.of b)).depth = (D₀.header (Place.of b)).depth := by
    rw [h.depth, h.standing.depth]
  constructor
  · by_cases hb : Place.of b = .root
    · rw [← hb]
      exact hdepth
    · rcases hlow .root (Ne.symm hb) with hsame | hempty
      · exact congrArg (fun d => (headerLoad d).depth) hsame
      · exact hempty.depth
  · intro e a ha
    by_cases hab : a = b
    · subst hab
      obtain rfl : e = d := ha.depth.symm.trans h.depth
      exact h.standing
    · rcases hlow _ (fun heq => hab (Place.of_injective heq)) with hsame | hempty
      · exact ha.congr hsame.symm
      · obtain ⟨a', e', heq, -, hst⟩ := hempty.node
        obtain rfl := Place.of_injective heq
        obtain rfl : e' = e := by rw [← hst.depth, ← hempty.depth, ha.depth]
        exact hst
  · intro e a i ha hi
    by_cases hab : a = b
    · subst hab
      exact h.entries (h.depth.symm.trans ha.depth) hi
    · rcases hlow _ (fun heq => hab (Place.of_injective heq)) with hsame | hempty
      · unfold EntryKept Disk.index Disk.key
        unfold Disk.header at hi ⊢
        rw [hsame] at hi ⊢
        exact ⟨i, hi, rfl, fun h0 => ⟨h0, Or.inl rfl⟩⟩
      · rw [hempty.count] at hi
        exact absurd hi (Nat.not_lt_zero i)
  · intro e a ha
    by_cases hab : Place.block a = Place.of b
    · have hb : b ≠ 0 := by
        rintro rfl
        cases hab
      have hdb := h.depth
      rw [Place.of_ne_zero hb] at hab hdb
      obtain rfl := Place.block.inj hab
      obtain rfl : e = d := ha.depth.symm.trans hdb
      exact h.leftmost hb ha
    · rcases hlow _ hab with hsame | hempty
      · refine ⟨ha.congr hsame, Or.inl ?_⟩
        unfold Disk.extent
        rw [hsame]
      · exact absurd ha.nonempty (by rw [hempty.count]; exact Nat.lt_irrefl 0)

end NodeEdit

section Shrunk

variable (h : Shrunk inodeRef g D₀ D)

include h

/-- A left edge that passes the checks is an old one. -/
theorem Shrunk.edgeOk : ∀ {d b : ℕ}, EdgeOk inodeRef D d b → EdgeOk inodeRef D₀ d b ∧
    (D.firstBelow d b = D₀.firstBelow d b ∨ D₀.firstBelow d b ≤ g)
  | 0, b, hok => by
      obtain ⟨h₁, he | ⟨h0, -⟩ | hl⟩ := h.leftmost hok
      · exact ⟨h₁, Or.inl (congrArg (·.firstBlock) he)⟩
      · exact absurd h0 (Nat.lt_irrefl 0)
      · exact ⟨h₁, Or.inr hl.low⟩
  | d + 1, b, ⟨hok, hbelow⟩ => by
      -- the first entry leads where it led
      have old (h₁ : LeftmostOk inodeRef D₀ (d + 1) b)
          (he : indexGetPblock (D.index (.block b) 0) = indexGetPblock (D₀.index (.block b) 0)) :
          EdgeOk inodeRef D₀ (d + 1) b ∧ (D.firstBelow (d + 1) b = D₀.firstBelow (d + 1) b ∨
            D₀.firstBelow (d + 1) b ≤ g) := by
        obtain ⟨h₂, h₃⟩ := Shrunk.edgeOk hbelow
        rw [he] at h₂ h₃
        rw [Disk.firstBelow_succ, he]
        exact ⟨⟨h₁, h₂⟩, h₃⟩
      obtain ⟨h₁, he | ⟨-, he⟩ | hl⟩ := h.leftmost hok
      · exact old h₁ (by rw [D.index_eq, D₀.index_eq, he])
      · exact old h₁ he
      · exact ⟨hl.edge, Or.inr hl.low⟩

theorem Shrunk.linked (hl : Linked inodeRef D d b) : Linked inodeRef D₀ d b := by
  induction hl with
  | root =>
      rw [h.root]
      exact .root
  | child _ hs hj ih =>
      obtain ⟨j₀, hj₀, he, -⟩ := h.entries hs hj
      rw [he]
      exact ih.child (h.standing hs) hj₀

theorem Shrunk.keysBelow (hk : KeysBelow inodeRef D₀ g) : KeysBelow inodeRef D g := by
  intro d b j hl hs h0 hj hkey hedge
  obtain ⟨j₀, hj₀, he, hpos⟩ := h.entries hs hj
  obtain ⟨h0', hsame | hcov⟩ := hpos h0
  · obtain ⟨hedge₀, hfirst⟩ := h.edgeOk hedge
    rw [he] at hedge₀ hfirst ⊢
    rw [hsame] at hkey ⊢
    have := hk d b j₀ (h.linked hl) (h.standing hs) h0' hj₀ hkey hedge₀
    omega
  · exact hcov hkey hedge

end Shrunk

/-! ## Around an emptied child -/

/-- A node whose first child is an edge at or before `g`. -/
theorem LowEdge.parent (h : LowEdge inodeRef D g d (indexGetPblock x.asIndex)) (hb : b ≠ 0)
    (hs : D.slots (Place.of b) = x :: r) (hok : LeftmostOk inodeRef D (d + 1) b) :
    LowEdge inodeRef D g (d + 1) b := by
  rw [Place.of_ne_zero hb] at hs
  have hindex : D.index (.block b) 0 = x.asIndex := by rw [Disk.index_eq, Disk.extent_zero hs]
  exact ⟨⟨hok, by rw [hindex]; exact h.edge⟩, by rw [Disk.firstBelow_succ, hindex]; exact h.low⟩

/-- The second key of a node, once its first entry is gone. -/
theorem Shrunk.keyBelow (h : Shrunk inodeRef g D₀ D) (hk : KeysBelow inodeRef D₀ g)
    (hl : Linked inodeRef D₀ (d + 1) b) (hst : Standing inodeRef D₀ (d + 1) b) (hb : b ≠ 0)
    (hs : D₀.slots (Place.of b) = x :: y :: r) (hslots : D.slots (Place.of b) = y :: r) :
    KeyBelow inodeRef D g (d + 1) b y.firstBlock := by
  intro hg hedge
  rw [Place.of_ne_zero hb] at hslots
  have hy : D₀.extent (Place.of b) 1 = y := Disk.extent_of_slots (l := [x]) hs
  have hkey : D₀.key (Place.of b) 1 = y.firstBlock := by rw [← Disk.extent_firstBlock, hy]
  have hlt : 1 < (D₀.header (Place.of b)).entriesCount := by
    rw [← Disk.length_slots, hs, List.length_cons, List.length_cons]
    omega
  have hbelow := hedge.2
  rw [Disk.index_eq, Disk.extent_zero hslots] at hbelow
  obtain ⟨hedge₀, hold⟩ := h.edgeOk hbelow
  have := hk d b 1 hl hst Nat.zero_lt_one hlt (by rw [hkey]; exact hg)
    (by rw [Disk.index_eq, hy]; exact hedge₀)
  rw [hkey, Disk.index_eq, hy] at this
  rw [Disk.firstBelow_succ, Disk.index_eq, Disk.extent_zero hslots]
  omega

end Lemmas

end EspLwext4
