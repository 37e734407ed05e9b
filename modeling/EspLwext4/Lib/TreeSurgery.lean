import EspLwext4.Lib.TreeContext

/-!
# Splitting, raising and pruning

The three changes of shape of a search tree: a node is split in two, the root
moves one level down, and an emptied node goes together with the nodes above it
that it leaves empty. Each keeps the entries and accounts for the addresses.
-/

namespace EspLwext4

open Ranged

variable {α : Type} {d D : ℕ}

/-! ## Splitting -/

namespace SepTree

/-- The node with its first `mid` entries. -/
def lower (mid : ℕ) : {d : ℕ} → SepTree α d → SepTree α d
  | 0, leaf b es => leaf b (es.take mid)
  | _ + 1, node b cs => node b (cs.take mid)

/-- A node at `b'` with the other entries. -/
def upper (mid b' : ℕ) : {d : ℕ} → SepTree α d → SepTree α d
  | 0, leaf _ es => leaf b' (es.drop mid)
  | _ + 1, node _ cs => node b' (cs.drop mid)

variable {mid b b' : ℕ} (t : SepTree α d)

@[simp] theorem addr_lower : (t.lower mid).addr = t.addr := by cases t <;> rfl

@[simp] theorem addr_upper : (t.upper mid b').addr = b' := by cases t <;> rfl

theorem items_halves : (t.lower mid).items ++ (t.upper mid b').items = t.items := by
  cases t with
  | leaf b es => exact List.take_append_drop mid es
  | node b cs =>
      show List.flatMap _ _ ++ List.flatMap _ _ = List.flatMap _ _
      rw [← List.flatMap_append, List.take_append_drop]

variable {t} in
theorem mem_items_upper {e : α} (h : e ∈ (t.upper mid b').items) : e ∈ t.items :=
  items_halves t ▸ List.mem_append_right (t.lower mid).items h

theorem addrs_halves : (t.lower mid).addrs + (t.upper mid b').addrs = b' ::ₘ t.addrs := by
  cases t with
  | leaf b es =>
      show {b} + {b'} = b' ::ₘ {b}
      rw [Multiset.singleton_add]
      exact Multiset.pair_comm b b'
  | node b cs =>
      show (b ::ₘ ((cs.take mid).map fun c => c.2.addrs).sum) +
        (b' ::ₘ ((cs.drop mid).map fun c => c.2.addrs).sum) = b' ::ₘ b ::ₘ _
      rw [Multiset.cons_add, Multiset.add_cons, Multiset.cons_swap, ← List.sum_append,
        ← List.map_append, List.take_append_drop]

variable {t} in
theorem mem_below_lower {a : ℕ} (h : a ∈ (t.lower mid).below) : a ∈ t.below := by
  cases t with
  | leaf b es => cases h
  | node b cs =>
      obtain ⟨c, hc, ha⟩ := mem_sum_addrs.mp h
      exact mem_sum_addrs.mpr ⟨c, List.mem_of_mem_take hc, ha⟩

variable {t} in
theorem mem_below_upper {a : ℕ} (h : a ∈ (t.upper mid b').below) : a ∈ t.below := by
  cases t with
  | leaf b es => cases h
  | node b cs =>
      obtain ⟨c, hc, ha⟩ := mem_sum_addrs.mp h
      exact mem_sum_addrs.mpr ⟨c, List.mem_of_mem_drop hc, ha⟩

variable {t} in
theorem Below.lower {p : ∀ {d : ℕ}, SepTree α d → Prop} (h : t.Below p) :
    (t.lower mid).Below p := by
  cases t with
  | leaf b es => trivial
  | node b cs => exact fun c hc => h c (List.mem_of_mem_take hc)

variable {t} in
theorem Below.upper {p : ∀ {d : ℕ}, SepTree α d → Prop} (h : t.Below p) :
    (t.upper mid b').Below p := by
  cases t with
  | leaf b es => trivial
  | node b cs => exact fun c hc => h c (List.mem_of_mem_drop hc)

section Ranged

variable [Ranged α]

theorem keys_lower : (t.lower mid).keys = t.keys.take mid := by
  cases t with
  | leaf b es => exact List.map_take
  | node b cs => exact List.map_take

theorem keys_upper : (t.upper mid b').keys = t.keys.drop mid := by
  cases t with
  | leaf b es => exact List.map_drop
  | node b cs => exact List.map_drop

theorem marks_halves : (t.lower mid).marks ++ (t.upper mid b').marks = t.marks := by
  cases t with
  | leaf b es =>
      show List.flatMap _ _ ++ List.flatMap _ _ = List.flatMap _ _
      rw [← List.flatMap_append, List.take_append_drop]
  | node b cs =>
      show List.flatMap _ _ ++ List.flatMap _ _ = List.flatMap _ _
      rw [← List.flatMap_append, List.take_append_drop]

variable {t}

theorem Exact.lower (h : t.Exact) : (t.lower mid).Exact := by
  cases t with
  | leaf b es => exact trivial
  | node b cs =>
      rcases all_node.mp h with ⟨hp, hcs⟩
      exact all_node.mpr ⟨fun c hc => hp c (List.mem_of_mem_take hc),
        fun c hc => hcs c (List.mem_of_mem_take hc)⟩

theorem Exact.upper (h : t.Exact) : (t.upper mid b').Exact := by
  cases t with
  | leaf b es => exact trivial
  | node b cs =>
      rcases all_node.mp h with ⟨hp, hcs⟩
      exact all_node.mpr ⟨fun c hc => hp c (List.mem_of_mem_drop hc),
        fun c hc => hcs c (List.mem_of_mem_drop hc)⟩

theorem Exact.withAddr (h : t.Exact) : (t.withAddr b).Exact := by
  cases t with
  | leaf b es => exact trivial
  | node b cs => exact h

end Ranged

variable {t}

theorem Ordered.lower (h : t.Ordered) : (t.lower mid).Ordered := by
  cases t with
  | leaf b es => exact trivial
  | node b cs =>
      rcases all_node.mp h with ⟨hp, hcs⟩
      refine all_node.mpr ⟨?_, fun c hc => hcs c (List.mem_of_mem_take hc)⟩
      exact List.Pairwise.sublist (List.Sublist.map _ (List.take_sublist mid cs)) hp

theorem Ordered.upper (h : t.Ordered) : (t.upper mid b').Ordered := by
  cases t with
  | leaf b es => exact trivial
  | node b cs =>
      rcases all_node.mp h with ⟨hp, hcs⟩
      refine all_node.mpr ⟨?_, fun c hc => hcs c (List.mem_of_mem_drop hc)⟩
      exact List.Pairwise.sublist (List.Sublist.map _ (List.drop_sublist mid cs)) hp

theorem Ordered.withAddr (h : t.Ordered) : (t.withAddr b).Ordered := by
  cases t with
  | leaf b es => exact trivial
  | node b cs => exact h

theorem Bushy.withAddr {P : List α → Prop} (h : t.Bushy P) : (t.withAddr b).Bushy P := by
  cases t with
  | leaf b es => exact h
  | node b cs => exact h

/-- Both halves of a node with more than `mid` entries have some. -/
theorem Bushy.lower [Ranged α] {P : List α → Prop} (h : t.Bushy P)
    (hP : ∀ es : List α, es ≠ [] → P es) (h0 : 0 < mid) (hmid : mid < t.keys.length) :
    (t.lower mid).Bushy P := by
  cases t with
  | leaf b es =>
      rw [keys_leaf, List.length_map] at hmid
      exact hP _ (List.ne_nil_of_length_pos (by rw [List.length_take]; omega))
  | node b cs =>
      rcases all_node.mp h with ⟨-, hcs⟩
      rw [keys_node, List.length_map] at hmid
      exact all_node.mpr ⟨List.ne_nil_of_length_pos (by rw [List.length_take]; omega),
        fun c hc => hcs c (List.mem_of_mem_take hc)⟩

theorem Bushy.upper [Ranged α] {P : List α → Prop} (h : t.Bushy P)
    (hP : ∀ es : List α, es ≠ [] → P es) (hmid : mid < t.keys.length) :
    (t.upper mid b').Bushy P := by
  cases t with
  | leaf b es =>
      rw [keys_leaf, List.length_map] at hmid
      exact hP _ (List.ne_nil_of_length_pos (by rw [List.length_drop]; omega))
  | node b cs =>
      rcases all_node.mp h with ⟨-, hcs⟩
      rw [keys_node, List.length_map] at hmid
      exact all_node.mpr ⟨List.ne_nil_of_length_pos (by rw [List.length_drop]; omega),
        fun c hc => hcs c (List.mem_of_mem_drop hc)⟩

end SepTree

/-- The node above the hole once `u`, which was in it, is split before entry `mid`:
the new half is at `b'`, under the key `k`. -/
def Frame.split (f : Frame α d) (u : SepTree α d) (mid b' k : ℕ) : SepTree α (d + 1) :=
  .node f.addr (f.left ++ (f.key, u.lower mid) :: (k, u.upper mid b') :: f.right)

/-- The node above the hole with one more child, right behind it. -/
def Frame.beside (f : Frame α d) (x : ℕ × SepTree α d) : Frame α d := { f with right := x :: f.right }

namespace Frame

variable {f : Frame α d} {u : SepTree α d} {mid b' k : ℕ}

theorem split_eq : f.split u mid b' k = (f.beside (k, u.upper mid b')).fill (u.lower mid) := rfl

@[simp] theorem addr_split : (f.split u mid b' k).addr = f.addr := rfl

theorem items_split : (f.split u mid b' k).items = (f.fill u).items := by
  unfold split fill
  rw [SepTree.items_node, SepTree.items_node, List.flatMap_append, List.flatMap_append,
    List.flatMap_cons, List.flatMap_cons, List.flatMap_cons, ← List.append_assoc (u.lower mid).items,
    SepTree.items_halves]

theorem addrs_split : (f.split u mid b' k).addrs = b' ::ₘ (f.fill u).addrs := by
  unfold split fill
  have h : (u.lower mid).addrs + (u.upper mid b').addrs = b' ::ₘ u.addrs := SepTree.addrs_halves u
  simp only [SepTree.addrs_node, List.map_append, List.map_cons, List.sum_append, List.sum_cons]
  rw [Multiset.cons_swap]
  congr 1
  calc (f.left.map fun c => c.2.addrs).sum +
        ((u.lower mid).addrs + ((u.upper mid b').addrs + (f.right.map fun c => c.2.addrs).sum))
      = (f.left.map fun c => c.2.addrs).sum +
        ((u.lower mid).addrs + (u.upper mid b').addrs + (f.right.map fun c => c.2.addrs).sum) := by
        rw [add_assoc]
    _ = b' ::ₘ ((f.left.map fun c => c.2.addrs).sum +
        (u.addrs + (f.right.map fun c => c.2.addrs).sum)) := by
        rw [h, Multiset.cons_add, Multiset.add_cons]

theorem bushy_split [Ranged α] {P : List α → Prop} (h : (f.fill u).Bushy P)
    (hP : ∀ es : List α, es ≠ [] → P es) (h0 : 0 < mid) (hmid : mid < u.keys.length) :
    (f.split u mid b' k).Bushy P := by
  rcases SepTree.all_node.mp h with ⟨-, hcs⟩
  have hu : u.Bushy P := hcs (f.key, u) (by simp)
  refine SepTree.all_node.mpr ⟨by simp [SepTree.BushyAt], fun c hc => ?_⟩
  simp only [List.mem_append, List.mem_cons] at hc
  rcases hc with hc | rfl | rfl | hc
  · exact hcs c (by simp [hc])
  · exact hu.lower hP h0 hmid
  · exact hu.upper hP hmid
  · exact hcs c (by simp [hc])

theorem ordered_split (h : (f.fill u).Ordered) (hk : f.key < k)
    (hr : ∀ c ∈ f.right, k < c.1) : (f.split u mid b' k).Ordered := by
  rcases SepTree.all_node.mp h with ⟨hord, hcs⟩
  have hu : u.Ordered := hcs (f.key, u) (by simp)
  constructor
  · have hord : ((f.left ++ (f.key, u) :: f.right).map fun c => c.1).Pairwise (· < ·) := hord
    show ((f.left ++ (f.key, u.lower mid) :: (k, u.upper mid b') :: f.right).map
      fun c => c.1).Pairwise (· < ·)
    simp only [List.map_append, List.map_cons, List.pairwise_append, List.pairwise_cons] at hord ⊢
    obtain ⟨hl, ⟨hkr, hright⟩, hlr⟩ := hord
    refine ⟨hl, ⟨?_, ?_, hright⟩, ?_⟩
    · rintro m (_ | ⟨_, hm⟩)
      · exact hk
      · exact hkr m hm
    · intro m hm
      obtain ⟨c, hc, rfl⟩ := List.mem_map.mp hm
      exact hr c hc
    · rintro m hm m' (_ | ⟨_, _ | ⟨_, hm'⟩⟩)
      · exact hlr m hm _ (by simp)
      · exact Nat.lt_trans (hlr m hm _ (by simp)) hk
      · exact hlr m hm m' (List.mem_cons_of_mem _ hm')
  · intro c hc
    simp only [List.mem_append, List.mem_cons] at hc
    rcases hc with hc | rfl | rfl | hc
    · exact hcs c (by simp [hc])
    · exact hu.lower
    · exact hu.upper
    · exact hcs c (by simp [hc])

section Ranged

variable [Ranged α]

theorem exact_split (h : (f.fill u).Exact) (h0 : 0 < mid) (hk : (u.keys.drop mid).head? = some k) :
    (f.split u mid b' k).Exact := by
  rcases SepTree.all_node.mp h with ⟨hex, hcs⟩
  have hu : u.Exact := hcs (f.key, u) (by simp)
  have hkey : u.keys.head? = some f.key := hex (f.key, u) (by simp)
  constructor
  · intro c hc
    simp only [List.mem_append, List.mem_cons] at hc
    rcases hc with hc | rfl | rfl | hc
    · exact hex c (by simp [hc])
    · rw [SepTree.keys_lower, List.head?_take, if_neg (by omega)]
      exact hkey
    · rw [SepTree.keys_upper]
      exact hk
    · exact hex c (by simp [hc])
  · intro c hc
    simp only [List.mem_append, List.mem_cons] at hc
    rcases hc with hc | rfl | rfl | hc
    · exact hcs c (by simp [hc])
    · exact hu.lower
    · exact hu.upper
    · exact hcs c (by simp [hc])

/-- A split puts the key `k` in front of the marks of the upper half. -/
theorem marks_split : (f.split u mid b' k).marks =
    Ctx.marksOf f.left ++ f.key :: ((u.lower mid).marks ++ k :: (u.upper mid b').marks) ++
      Ctx.marksOf f.right := by
  simp [split, Ctx.marksOf]

theorem head?_keys_split : (f.split u mid b' k).keys.head? = (f.fill u).keys.head? := by
  rcases hl : f.left with _ | ⟨c, cs⟩ <;> simp [split, fill, hl]

end Ranged

end Frame

namespace Ctx

variable {f : Frame α d} {c : Ctx α (d + 1) D} {u : SepTree α d} {x : ℕ × SepTree α d}

theorem addrs_beside : (cons (f.beside x) c).addrs = x.2.addrs + (cons f c).addrs := by
  simp only [addrs, Frame.siblings, Frame.beside, List.map_append, List.map_cons, List.sum_append,
    List.sum_cons, Multiset.cons_add, Multiset.add_cons]
  congr 1
  abel

theorem mem_items_beside {e : α} (h : e ∈ ((cons (f.beside x) c).plug u).items) :
    e ∈ x.2.items ∨ e ∈ ((cons f c).plug u).items := by
  rw [items_plug, itemsLeft, itemsRight] at h ⊢
  simp only [Frame.beside, List.flatMap_cons, List.mem_append] at h ⊢
  tauto

end Ctx

section Sorted

variable [Ranged α]

/-- Repeating an element keeps a list sorted. -/
theorem sorted_repeat {l₁ l₂ : List ℕ} {k : ℕ} (h : (l₁ ++ k :: l₂).Pairwise (· ≤ ·)) :
    (l₁ ++ k :: k :: l₂).Pairwise (· ≤ ·) := by
  simp only [List.pairwise_append, List.pairwise_cons] at h ⊢
  obtain ⟨h₁, ⟨hk, h₂⟩, h₁₂⟩ := h
  refine ⟨h₁, ⟨?_, hk, h₂⟩, ?_⟩
  · rintro m (_ | ⟨_, hm⟩)
    · exact Nat.le_refl _
    · exact hk m hm
  · rintro m hm m' (_ | ⟨_, hm'⟩)
    · exact h₁₂ m hm k (by simp)
    · exact h₁₂ m hm m' hm'

theorem Ctx.sorted_split {f : Frame α d} {c : Ctx α (d + 1) D} {u : SepTree α d} {mid b' k : ℕ}
    (h : ((Ctx.cons f c).plug u).marks.Pairwise (· ≤ ·))
    (hk : (u.keys.drop mid).head? = some k) :
    (c.plug (f.split u mid b' k)).marks.Pairwise (· ≤ ·) := by
  have hhead : (u.upper mid b').marks.head? = some k := by
    rw [SepTree.head?_marks, SepTree.keys_upper, hk]
  obtain ⟨ms, hms⟩ : ∃ ms, (u.upper mid b').marks = k :: ms := by
    rcases hm : (u.upper mid b').marks with _ | ⟨k', ms⟩
    · rw [hm] at hhead; cases hhead
    · rw [hm] at hhead
      exact ⟨ms, by rw [Option.some.inj hhead]⟩
  rw [Ctx.marks_plug, ← SepTree.marks_halves u, hms, Ctx.pre, Ctx.post] at h
  rw [Ctx.marks_plug, Frame.marks_split, hms]
  have h' : ((c.pre ++ Ctx.marksOf f.left ++ f.key :: (u.lower mid).marks) ++
      k :: k :: (ms ++ Ctx.marksOf f.right ++ c.post)).Pairwise (· ≤ ·) :=
    sorted_repeat (by simpa using h)
  simpa using h'

/-- A split brings no new mark. -/
theorem Ctx.mem_marks_split {f : Frame α d} {c : Ctx α (d + 1) D} {u : SepTree α d}
    {mid b' k m : ℕ} (hk : (u.keys.drop mid).head? = some k)
    (hm : m ∈ (c.plug (f.split u mid b' k)).marks) : m ∈ ((Ctx.cons f c).plug u).marks := by
  have hkey : k ∈ u.marks := by
    refine SepTree.mem_marks_of_mem_keys (List.mem_of_mem_drop (i := mid) ?_)
    exact List.mem_of_head? hk
  have hhalves : (u.lower mid).marks ++ (u.upper mid b').marks = u.marks := SepTree.marks_halves u
  rw [Ctx.marks_plug, Frame.marks_split] at hm
  rw [Ctx.marks_plug, ← hhalves, Ctx.pre, Ctx.post]
  rw [← hhalves] at hkey
  simp only [List.mem_append, List.mem_cons] at hm hkey ⊢
  rcases hm with (hm | (hm | hm | hm | rfl | hm) | hm) | hm <;> tauto

end Sorted

/-! ## Raising the root -/

namespace SepTree

/-- A new root over the old one, which moves to `b'` and gets the key `k`. -/
def raise (b' k : ℕ) (t : SepTree α d) : SepTree α (d + 1) := node t.addr [(k, t.withAddr b')]

variable {b' k : ℕ} {t : SepTree α d}

@[simp] theorem addr_raise : (t.raise b' k).addr = t.addr := rfl

@[simp] theorem items_raise : (t.raise b' k).items = t.items := by simp [raise]

theorem addrs_raise : (t.raise b' k).addrs = b' ::ₘ t.addrs := by
  simp [raise, addrs_withAddr]

theorem below_raise : (t.raise b' k).below = b' ::ₘ t.below := by
  show (t.withAddr b').addrs + 0 = _
  rw [add_zero, addrs_eq, addr_withAddr, below_withAddr]

theorem Ordered.raise (h : t.Ordered) : (t.raise b' k).Ordered :=
  all_node.mpr ⟨List.pairwise_singleton _ _, by rintro c (_ | ⟨_, hc⟩); exacts [h.withAddr, by cases hc]⟩

theorem Bushy.raise {P : List α → Prop} (h : t.Bushy P) : (t.raise b' k).Bushy P :=
  all_node.mpr ⟨List.cons_ne_nil _ _, by rintro c (_ | ⟨_, hc⟩); exacts [h.withAddr, by cases hc]⟩

variable [Ranged α]

theorem Exact.raise (h : t.Exact) (hk : t.keys.head? = some k) : (t.raise b' k).Exact := by
  refine all_node.mpr ⟨?_, ?_⟩
  · rintro c (_ | ⟨_, hc⟩)
    · rw [keys_withAddr]; exact hk
    · cases hc
  · rintro c (_ | ⟨_, hc⟩)
    · exact h.withAddr
    · cases hc

/-- A growth brings no new mark. -/
theorem mem_marks_raise {m : ℕ} (hk : t.keys.head? = some k) (hm : m ∈ (t.raise b' k).marks) :
    m ∈ t.marks := by
  simp only [raise, marks_node, List.flatMap_cons, List.flatMap_nil, List.append_nil,
    marks_withAddr, List.mem_cons] at hm
  rcases hm with rfl | hm
  · exact mem_marks_of_mem_keys (List.mem_of_head? hk)
  · exact hm

theorem sorted_raise (h : t.marks.Pairwise (· ≤ ·)) (hk : t.keys.head? = some k) :
    (t.raise b' k).marks.Pairwise (· ≤ ·) := by
  rw [← head?_marks] at hk
  rcases hm : t.marks with _ | ⟨k', ms⟩
  · rw [hm] at hk; cases hk
  · rw [hm] at hk h
    obtain rfl := Option.some.inj hk
    have h' : ([] ++ k' :: k' :: ms).Pairwise (· ≤ ·) := sorted_repeat h
    simpa [raise, hm] using h'

end SepTree

/-! ## Pruning -/

namespace Ctx

/-- Close the hole: the frames that this leaves empty go too. When the root goes,
an empty leaf stays in its place. `b` is the address of the hole. -/
def prune : {d : ℕ} → Ctx α d D → ℕ → (e : ℕ) × SepTree α e
  | _, nil, b => ⟨0, .leaf b []⟩
  | _, cons f c, _ =>
      match f.siblings with
      | [] => c.prune f.addr
      | k :: ks => ⟨D, (c.rekeyIf f.left.isEmpty k.1).plug (.node f.addr (k :: ks))⟩

/-- The addresses that closing a hole at `b` takes out of the tree. -/
def pruned : {d : ℕ} → Ctx α d D → ℕ → Multiset ℕ
  | _, nil, _ => 0
  | _, cons f c, b => b ::ₘ if f.siblings.isEmpty then c.pruned f.addr else 0

theorem siblings_eq_nil {f : Frame α d} (h : f.siblings = []) : f.left = [] ∧ f.right = [] :=
  List.append_eq_nil_iff.mp h

section Prune

variable {f : Frame α d} {c : Ctx α (d + 1) D} {b : ℕ} {k : ℕ × SepTree α d}
variable {ks : List (ℕ × SepTree α d)}

theorem prune_of_siblings (h : f.siblings = k :: ks) : (cons f c).prune b =
    ⟨D, (c.rekeyIf f.left.isEmpty k.1).plug (.node f.addr f.siblings)⟩ := by
  rw [prune, h]

theorem prune_of_no_siblings (h : f.siblings = []) : (cons f c).prune b = c.prune f.addr := by
  rw [prune, h]

theorem pruned_of_siblings (h : f.siblings = k :: ks) : (cons f c).pruned b = {b} := by
  rw [pruned, h]; rfl

theorem pruned_of_no_siblings (h : f.siblings = []) :
    (cons f c).pruned b = b ::ₘ c.pruned f.addr := by
  rw [pruned, h]; rfl

end Prune

/-- Nothing is left above the root. -/
theorem prune_of_length {c : Ctx α d D} {b : ℕ} (h : c.length = 0) :
    c.prune b = ⟨0, .leaf b []⟩ ∧ c.pruned b = 0 := by
  cases c with
  | nil => exact ⟨rfl, rfl⟩
  | cons f c => cases h

theorem items_prune : ∀ {d : ℕ} (c : Ctx α d D) (b : ℕ),
    (c.prune b).2.items = c.itemsLeft ++ c.itemsRight := by
  intro d c
  induction c with
  | nil => intro b; rfl
  | cons f c ih =>
      intro b
      rcases hs : f.siblings with _ | ⟨k, ks⟩
      · obtain ⟨hl, hr⟩ := siblings_eq_nil hs
        rw [prune_of_no_siblings hs, ih, itemsLeft, itemsRight, hl, hr]
        simp
      · rw [prune_of_siblings hs]
        simp [items_plug, itemsLeft, itemsRight, Frame.siblings]

theorem addrs_prune : ∀ {d : ℕ} (c : Ctx α d D) (b : ℕ),
    b ::ₘ c.addrs = (c.prune b).2.addrs + c.pruned b := by
  intro d c
  induction c with
  | nil => intro b; simp [addrs, prune, pruned]
  | cons f c ih =>
      intro b
      rcases hs : f.siblings with _ | ⟨k, ks⟩
      · rw [prune_of_no_siblings hs, pruned_of_no_siblings hs, addrs, hs, List.map_nil,
          List.sum_nil, Multiset.add_cons, ← ih f.addr, Multiset.cons_add, zero_add]
      · rw [prune_of_siblings hs, pruned_of_siblings hs, addrs_plug, addrs_rekeyIf,
          SepTree.addrs_node, addrs, add_comm c.addrs, add_comm _ ({b} : Multiset ℕ),
          Multiset.singleton_add]

theorem addr_prune : ∀ {d : ℕ} (c : Ctx α d D) (b : ℕ), (c.prune b).2.addr = c.rootAddr b := by
  intro d c
  induction c with
  | nil => intro b; rfl
  | cons f c ih =>
      intro b
      rcases hs : f.siblings with _ | ⟨k, ks⟩
      · rw [prune_of_no_siblings hs, ih]; rfl
      · rw [prune_of_siblings hs, addr_plug, rootAddr_rekeyIf]; rfl

/-- What is left of a node once its hole is closed has the properties it had. -/
theorem around_siblings {p : ∀ {d : ℕ}, SepTree α d → Prop} {f : Frame α d}
    {c : Ctx α (d + 1) D} {t : SepTree α d} (h : (cons f c).Around p t)
    (hp : p (f.fill t) → p (.node f.addr f.siblings)) : (SepTree.node f.addr f.siblings).All p :=
  SepTree.all_node.mpr ⟨hp h.1, h.2.1⟩

theorem bushy_prune {P : List α → Prop} : ∀ {d : ℕ} {c : Ctx α d D} {b : ℕ} {t : SepTree α d},
    c.Around (SepTree.BushyAt P) t → (c.prune b).1 = 0 ∨ (c.prune b).2.Bushy P := by
  intro d c
  induction c with
  | nil => intro b t _; exact Or.inl rfl
  | cons f c ih =>
      intro b t h
      rcases hs : f.siblings with _ | ⟨k, ks⟩
      · rw [prune_of_no_siblings hs]
        exact ih h.2.2
      · rw [prune_of_siblings hs]
        refine Or.inr ((all_plug _ _).mpr ⟨around_siblings h fun _ => by
          rw [hs]; exact List.cons_ne_nil _ _, ?_⟩)
        rcases f.left.isEmpty
        · exact around_bushy _ _ h.2.2
        · exact around_bushy_rekey h.2.2

/-- A subtree with entries in all leaves holds an entry. -/
theorem items_ne_nil_of_bushy {t : SepTree α d} (h : t.Bushy (· ≠ [])) : t.items ≠ [] := by
  induction t with
  | leaf b es => exact h
  | node b cs ih =>
      rcases SepTree.all_node.mp h with ⟨hne, hcs⟩
      rcases cs with _ | ⟨c, cs⟩
      · exact absurd rfl hne
      · rw [SepTree.items_node, List.flatMap_cons]
        exact List.append_ne_nil_of_left_ne_nil (ih c (by simp) (hcs c (by simp))) _

section Ranged

variable [Ranged α] {v : ℕ}

theorem exact_prune : ∀ {d : ℕ} {c : Ctx α d D} {b : ℕ} {t : SepTree α d},
    c.Around SepTree.ExactAt t → (c.prune b).2.Exact := by
  intro d c
  induction c with
  | nil => intro b t _; trivial
  | cons f c ih =>
      intro b t h
      rcases hs : f.siblings with _ | ⟨k, ks⟩
      · rw [prune_of_no_siblings hs]
        exact ih h.2.2
      · rw [prune_of_siblings hs]
        refine (all_plug _ _).mpr ⟨around_siblings h fun hf k hk => hf k ?_, ?_⟩
        · rcases List.mem_append.mp hk with hk | hk <;> simp [hk]
        · rcases hl : f.left with _ | ⟨k', ks'⟩
          · exact around_exact_rekey h.2.2 (by simp [hs])
          · exact around_exact _ _ (by simp [Frame.fill, Frame.siblings, hl]) h.2.2

theorem anchor_mem_pre : ∀ {d : ℕ} {c : Ctx α d D}, c.anchor = some v → v ∈ c.pre := by
  intro d c
  induction c with
  | nil => intro h; cases h
  | cons f c ih =>
      intro h
      rw [anchor] at h
      rw [pre]
      split at h
      · simp [ih h]
      · obtain rfl := Option.some.inj h
        simp

/-- A key between marks of what is in the hole belongs there. -/
theorem admits_of_between {c : Ctx α d D} {t : SepTree α d}
    (h : (c.plug t).marks.Pairwise (· ≤ ·)) (hlo : ∃ m ∈ t.marks, m ≤ v)
    (hhi : ∃ m ∈ t.marks, v < m) : c.Admits v := by
  obtain ⟨m, hm, hmv⟩ := hlo
  obtain ⟨m', hm', hvm⟩ := hhi
  rw [marks_plug, List.pairwise_append, List.pairwise_append] at h
  obtain ⟨⟨-, -, hpre⟩, -, hpost⟩ := h
  constructor
  · intro k hk
    exact Nat.le_trans (hpre k (anchor_mem_pre hk) m hm) hmv
  · intro k hk
    exact Nat.lt_of_lt_of_le hvm (hpost m' (List.mem_append_right _ hm') k hk)

/-- The first key left in a node whose hole is closed belongs above that node. -/
theorem admits_siblings {f : Frame α d} {c : Ctx α (d + 1) D} {t : SepTree α d}
    {k : ℕ × SepTree α d} {ks : List (ℕ × SepTree α d)}
    (h : ((cons f c).plug t).marks.Pairwise (· ≤ ·))
    (hpos : ∀ e ∈ ((cons f c).plug t).items, first e < stop e) (hs : f.siblings = k :: ks)
    (hk : k.2.Bushy (· ≠ [])) : c.Admits k.1 := by
  obtain ⟨e, he⟩ := List.exists_mem_of_ne_nil _ (items_ne_nil_of_bushy hk)
  have hmem : k ∈ f.left ++ (f.key, t) :: f.right := by
    have : k ∈ f.siblings := by simp [hs]
    rcases List.mem_append.mp this with hk | hk <;> simp [hk]
  have hmarks : ∀ m ∈ k.1 :: k.2.marks, m ∈ (f.fill t).marks :=
    fun m hm => List.mem_flatMap.mpr ⟨k, hmem, hm⟩
  have hsorted : (k.1 :: k.2.marks).Pairwise (· ≤ ·) := by
    rw [plug_cons, marks_plug, List.pairwise_append, List.pairwise_append] at h
    refine List.Pairwise.sublist ?_ h.1.2.1
    obtain ⟨l₁, l₂, hl⟩ := List.append_of_mem hmem
    show List.Sublist _ (List.flatMap _ (f.left ++ (f.key, t) :: f.right))
    rw [hl, List.flatMap_append, List.flatMap_cons]
    exact (List.sublist_append_left _ _).trans (List.sublist_append_right _ _)
  have hlt : first e < stop e := by
    refine hpos e ?_
    rw [plug_cons, items_plug]
    refine List.mem_append_left _ (List.mem_append_right _ ?_)
    exact List.mem_flatMap.mpr ⟨k, hmem, he⟩
  have hle : k.1 ≤ first e := (List.pairwise_cons.mp hsorted).1 _ (SepTree.first_mem_marks he)
  exact admits_of_between h ⟨k.1, hmarks _ (by simp), Nat.le_refl _⟩
    ⟨stop e, hmarks _ (List.mem_cons_of_mem _ (SepTree.stop_mem_marks he)), by omega⟩

theorem ordered_prune : ∀ {d : ℕ} {c : Ctx α d D} {b : ℕ} {t : SepTree α d},
    (c.plug t).marks.Pairwise (· ≤ ·) → (∀ e ∈ (c.plug t).items, first e < stop e) →
    c.Around (SepTree.BushyAt (· ≠ [])) t → c.Around SepTree.OrderedAt t →
    (c.prune b).2.Ordered := by
  intro d c
  induction c with
  | nil => intro b t _ _ _ _; trivial
  | cons f c ih =>
      intro b t hsorted hpos hbushy h
      rcases hs : f.siblings with _ | ⟨k, ks⟩
      · rw [prune_of_no_siblings hs]
        exact ih hsorted hpos hbushy.2.2 h.2.2
      · rw [prune_of_siblings hs]
        refine (all_plug _ _).mpr ⟨around_siblings h fun hf => ?_, ?_⟩
        · have hord : ((f.left ++ (f.key, t) :: f.right).map fun k => k.1).Pairwise (· < ·) := hf
          refine List.Pairwise.sublist (List.Sublist.map _ ?_) hord
          exact List.Sublist.append (List.Sublist.refl _) (List.sublist_cons_self _ _)
        · rcases f.left.isEmpty
          · exact around_ordered _ _ h.2.2
          · exact around_ordered_rekey h.2.2
              (admits_siblings hsorted hpos hs (hbushy.2.1 k (by simp [hs])))

theorem sorted_prune : ∀ {d : ℕ} {c : Ctx α d D} {b : ℕ} {t : SepTree α d},
    (c.plug t).marks.Pairwise (· ≤ ·) → (∀ e ∈ (c.plug t).items, first e < stop e) →
    c.Around (SepTree.BushyAt (· ≠ [])) t → (c.prune b).2.marks.Pairwise (· ≤ ·) := by
  intro d c
  induction c with
  | nil => intro b t _ _ _; exact List.Pairwise.nil
  | cons f c ih =>
      intro b t hsorted hpos hbushy
      rcases hs : f.siblings with _ | ⟨k, ks⟩
      · rw [prune_of_no_siblings hs]
        exact ih hsorted hpos hbushy.2.2
      · rw [prune_of_siblings hs]
        have hsub : (SepTree.node f.addr f.siblings).marks.Sublist (f.fill t).marks := by
          show List.Sublist (List.flatMap _ (f.left ++ f.right))
            (List.flatMap _ (f.left ++ (f.key, t) :: f.right))
          rw [List.flatMap_append, List.flatMap_append, List.flatMap_cons]
          exact List.Sublist.append (List.Sublist.refl _) (List.sublist_append_right _ _)
        have hsplit := hsorted
        rw [plug_cons, marks_plug, List.pairwise_append, List.pairwise_append] at hsplit
        obtain ⟨⟨-, hfill, hpre⟩, -, hpost⟩ := hsplit
        have hu := List.Pairwise.sublist hsub hfill
        have hhi : ∀ m ∈ (SepTree.node f.addr f.siblings).marks, ∀ m' ∈ c.post, m ≤ m' :=
          fun m hm => hpost m (List.mem_append_right _ (hsub.subset hm))
        rcases f.left.isEmpty
        · exact sorted_plug hsorted hu (fun m hm m' hm' => hpre m hm m' (hsub.subset hm')) hhi
        · refine sorted_rekey hsorted
            (admits_siblings hsorted hpos hs (hbushy.2.1 k (by simp [hs]))) hu ?_ hhi
          intro m hm
          rw [hs] at hm hu
          rcases List.mem_cons.mp hm with rfl | hm
          · exact Nat.le_refl _
          · exact (List.pairwise_cons.mp hu).1 m hm

end Ranged

end Ctx

end EspLwext4
