import Mathlib.Algebra.BigOperators.Group.Multiset.Basic
import Mathlib.Algebra.Order.Group.Multiset
import Mathlib.Tactic.Abel

/-!
# Search trees with separators

A `SepTree α d` has its entries of type `α` in leaves, `d` levels below the root.
An inner node names each of its children by a key. Every node has an address.

A place in a tree is a context, `Ctx`: the frames from the place up to the root.
What a tree holds splits along a context into what lies before, in and behind the
hole, so a change at one place is a statement about that place alone.
-/

namespace EspLwext4

/-- An entry of a leaf covers the keys from `first` on and before `stop`. -/
class Ranged (α : Type) where
  first : α → ℕ
  stop : α → ℕ

open Ranged

/-- A node: its address and what it lists. -/
structure SepNode (β : Type) where
  addr : ℕ
  entries : List β

/-- Trees of depth `d`. -/
def SepTree (α : Type) : ℕ → Type
  | 0 => SepNode α
  | d + 1 => SepNode (ℕ × SepTree α d)

namespace SepTree

variable {α : Type} {d : ℕ}

@[match_pattern] def leaf (b : ℕ) (es : List α) : SepTree α 0 := SepNode.mk b es

@[match_pattern] def node (b : ℕ) (cs : List (ℕ × SepTree α d)) : SepTree α (d + 1) :=
  SepNode.mk b cs

@[elab_as_elim, cases_eliminator]
theorem casesTree {motive : ∀ {d : ℕ}, SepTree α d → Prop} (leaf : ∀ b es, motive (leaf b es))
    (node : ∀ {d} b (cs : List (ℕ × SepTree α d)), motive (node b cs)) :
    ∀ {d : ℕ} (t : SepTree α d), motive t
  | 0, ⟨b, es⟩ => leaf b es
  | _ + 1, ⟨b, cs⟩ => node b cs

@[elab_as_elim, induction_eliminator]
theorem recTree {motive : ∀ {d : ℕ}, SepTree α d → Prop} (leaf : ∀ b es, motive (leaf b es))
    (node : ∀ {d} b (cs : List (ℕ × SepTree α d)), (∀ c ∈ cs, motive c.2) → motive (node b cs)) :
    ∀ {d : ℕ} (t : SepTree α d), motive t
  | 0, ⟨b, es⟩ => leaf b es
  | _ + 1, ⟨b, cs⟩ => node b cs fun c _ => recTree leaf node c.2

/-! ## What a tree holds -/

def addr : {d : ℕ} → SepTree α d → ℕ
  | 0, leaf b _ => b
  | _ + 1, node b _ => b

/-- The entries of the leaves, from left to right. -/
def items : {d : ℕ} → SepTree α d → List α
  | 0, leaf _ es => es
  | _ + 1, node _ cs => cs.flatMap fun c => c.2.items

/-- The addresses of all nodes. -/
def addrs : {d : ℕ} → SepTree α d → Multiset ℕ
  | 0, leaf b _ => {b}
  | _ + 1, node b cs => b ::ₘ (cs.map fun c => c.2.addrs).sum

/-- The addresses of all nodes but the root. -/
def below : {d : ℕ} → SepTree α d → Multiset ℕ
  | 0, _ => 0
  | _ + 1, node _ cs => (cs.map fun c => c.2.addrs).sum

/-- The tree with another address at its root. -/
def withAddr (b : ℕ) : {d : ℕ} → SepTree α d → SepTree α d
  | 0, leaf _ es => leaf b es
  | _ + 1, node _ cs => node b cs

@[simp] theorem addr_leaf (b : ℕ) (es : List α) : (leaf b es).addr = b := rfl

@[simp] theorem addr_node (b : ℕ) (cs : List (ℕ × SepTree α d)) : (node b cs).addr = b := rfl

@[simp] theorem items_leaf (b : ℕ) (es : List α) : (leaf b es).items = es := rfl

@[simp] theorem items_node (b : ℕ) (cs : List (ℕ × SepTree α d)) :
    (node b cs).items = cs.flatMap fun c => c.2.items := rfl

@[simp] theorem addrs_leaf (b : ℕ) (es : List α) : (leaf b es).addrs = {b} := rfl

@[simp] theorem addrs_node (b : ℕ) (cs : List (ℕ × SepTree α d)) :
    (node b cs).addrs = b ::ₘ (cs.map fun c => c.2.addrs).sum := rfl

theorem addrs_eq (t : SepTree α d) : t.addrs = t.addr ::ₘ t.below := by
  cases t <;> rfl

theorem mem_addrs_of_below {t : SepTree α d} {a : ℕ} (h : a ∈ t.below) : a ∈ t.addrs :=
  t.addrs_eq ▸ Multiset.mem_cons_of_mem h

@[simp] theorem below_withAddr (b : ℕ) (t : SepTree α d) : (t.withAddr b).below = t.below := by
  cases t <;> rfl

theorem addr_mem_addrs (t : SepTree α d) : t.addr ∈ t.addrs := by
  cases t with
  | leaf b es => simp
  | node b cs => simp

theorem mem_sum_addrs {cs : List (ℕ × SepTree α d)} {a : ℕ} :
    a ∈ (cs.map fun c => c.2.addrs).sum ↔ ∃ c ∈ cs, a ∈ c.2.addrs := by
  induction cs with
  | nil => simp
  | cons c cs ih => rw [List.map_cons, List.sum_cons, Multiset.mem_add, ih]; simp

theorem nodup_sum_addrs {cs : List (ℕ × SepTree α d)} (h : ∀ c ∈ cs, c.2.addrs.Nodup)
    (hd : cs.Pairwise fun c c' => Disjoint c.2.addrs c'.2.addrs) :
    (cs.map fun (c : ℕ × SepTree α d) => c.2.addrs).sum.Nodup := by
  induction cs with
  | nil => exact Multiset.nodup_zero
  | cons c cs ih =>
      obtain ⟨hc, hcs⟩ := List.pairwise_cons.mp hd
      rw [List.map_cons, List.sum_cons, Multiset.nodup_add]
      refine ⟨h c (by simp), ih (fun k hk => h k (List.mem_cons_of_mem _ hk)) hcs, ?_⟩
      rw [Multiset.disjoint_left]
      intro a ha ha'
      obtain ⟨k, hk, ha'⟩ := mem_sum_addrs.mp ha'
      exact Multiset.disjoint_left.mp (hc k hk) ha ha'

theorem mem_addrs_node {b : ℕ} {cs : List (ℕ × SepTree α d)} {c : ℕ × SepTree α d} {a : ℕ}
    (hc : c ∈ cs) (ha : a ∈ c.2.addrs) : a ∈ (node b cs).addrs := by
  rw [addrs_node, Multiset.mem_cons]
  exact Or.inr (mem_sum_addrs.mpr ⟨c, hc, ha⟩)

@[simp] theorem addr_withAddr (b : ℕ) (t : SepTree α d) : (t.withAddr b).addr = b := by
  cases t <;> rfl

@[simp] theorem items_withAddr (b : ℕ) (t : SepTree α d) : (t.withAddr b).items = t.items := by
  cases t <;> rfl

/-- The addresses below the root. -/
theorem addrs_withAddr (b : ℕ) (t : SepTree α d) :
    t.addr ::ₘ (t.withAddr b).addrs = b ::ₘ t.addrs := by
  cases t with
  | leaf a es => exact Multiset.cons_swap a b 0
  | node a cs => exact Multiset.cons_swap a b _

section Ranged

variable [Ranged α]

/-- The first word of every entry of the root node. -/
def keys : {d : ℕ} → SepTree α d → List ℕ
  | 0, leaf _ es => es.map first
  | _ + 1, node _ cs => cs.map fun c => c.1

/-- All keys and ends of entries, in the order of the tree. -/
def marks : {d : ℕ} → SepTree α d → List ℕ
  | 0, leaf _ es => es.flatMap fun e => [first e, stop e]
  | _ + 1, node _ cs => cs.flatMap fun c => c.1 :: c.2.marks

/-- The keys of all inner nodes. -/
def separators : {d : ℕ} → SepTree α d → List ℕ
  | 0, _ => []
  | _ + 1, node _ cs => cs.flatMap fun c => c.1 :: c.2.separators

/-- The keys behind the first of each inner node. The first one takes all that lies before it,
too, so it leads nowhere else. -/
def inner : {d : ℕ} → SepTree α d → List ℕ
  | 0, _ => []
  | _ + 1, node _ cs => (cs.tail.map fun c => c.1) ++ cs.flatMap fun c => c.2.inner

/-- What a parent sees of a child: its address and its first key. -/
def face (t : SepTree α d) : ℕ × Option ℕ := (t.addr, t.keys.head?)

@[simp] theorem keys_leaf (b : ℕ) (es : List α) : (leaf b es).keys = es.map first := rfl

@[simp] theorem keys_node (b : ℕ) (cs : List (ℕ × SepTree α d)) :
    (node b cs).keys = cs.map fun c => c.1 := rfl

@[simp] theorem marks_leaf (b : ℕ) (es : List α) :
    (leaf b es).marks = es.flatMap fun e => [first e, stop e] := rfl

@[simp] theorem marks_node (b : ℕ) (cs : List (ℕ × SepTree α d)) :
    (node b cs).marks = cs.flatMap fun c => c.1 :: c.2.marks := rfl

@[simp] theorem keys_withAddr (b : ℕ) (t : SepTree α d) : (t.withAddr b).keys = t.keys := by
  cases t <;> rfl

@[simp] theorem marks_withAddr (b : ℕ) (t : SepTree α d) : (t.withAddr b).marks = t.marks := by
  cases t <;> rfl

/-- The first mark of a tree is its first key. -/
theorem head?_marks (t : SepTree α d) : t.marks.head? = t.keys.head? := by
  cases t with
  | leaf b es => cases es <;> rfl
  | node b cs => cases cs <;> rfl

theorem mem_marks_of_mem_keys {t : SepTree α d} {k : ℕ} (h : k ∈ t.keys) : k ∈ t.marks := by
  cases t with
  | leaf b es =>
      obtain ⟨e, he, rfl⟩ := List.mem_map.mp h
      exact List.mem_flatMap.mpr ⟨e, he, by simp⟩
  | node b cs =>
      obtain ⟨c, hc, rfl⟩ := List.mem_map.mp h
      exact List.mem_flatMap.mpr ⟨c, hc, by simp⟩

/-- The bounds of the entries are among the marks. -/
theorem bounds_sublist (t : SepTree α d) :
    (t.items.flatMap fun e => [first e, stop e]).Sublist t.marks := by
  induction t with
  | leaf b es => exact List.Sublist.refl _
  | node b cs ih =>
      rw [items_node, marks_node]
      induction cs with
      | nil => exact List.Sublist.refl _
      | cons c cs ihcs =>
          rw [List.flatMap_cons, List.flatMap_cons, List.flatMap_append]
          refine List.Sublist.append ((ih c (by simp)).cons _) (ihcs fun c' hc' => ih c' ?_)
          exact List.mem_cons_of_mem _ hc'

theorem first_mem_marks {t : SepTree α d} {e : α} (h : e ∈ t.items) : first e ∈ t.marks :=
  t.bounds_sublist.subset (List.mem_flatMap.mpr ⟨e, h, by simp⟩)

theorem stop_mem_marks {t : SepTree α d} {e : α} (h : e ∈ t.items) : stop e ∈ t.marks :=
  t.bounds_sublist.subset (List.mem_flatMap.mpr ⟨e, h, by simp⟩)

/-- A mark is a key of an inner node or a bound of an entry. -/
theorem mem_marks {t : SepTree α d} {m : ℕ} :
    m ∈ t.marks ↔ m ∈ t.separators ∨ ∃ e ∈ t.items, m = first e ∨ m = stop e := by
  induction t with
  | leaf b es => simp [separators, items]
  | node b cs ih =>
      rw [marks_node, items_node]
      constructor
      · intro hm
        obtain ⟨c, hc, hm⟩ := List.mem_flatMap.mp hm
        rcases List.mem_cons.mp hm with rfl | hm
        · exact Or.inl (List.mem_flatMap.mpr ⟨c, hc, List.mem_cons_self ..⟩)
        · rcases (ih c hc).mp hm with hsep | ⟨e, he, hbound⟩
          · exact Or.inl (List.mem_flatMap.mpr ⟨c, hc, List.mem_cons_of_mem _ hsep⟩)
          · exact Or.inr ⟨e, List.mem_flatMap.mpr ⟨c, hc, he⟩, hbound⟩
      · rintro (hsep | ⟨e, he, hbound⟩)
        · obtain ⟨c, hc, hm⟩ := List.mem_flatMap.mp hsep
          refine List.mem_flatMap.mpr ⟨c, hc, ?_⟩
          rcases List.mem_cons.mp hm with rfl | hm
          · exact List.mem_cons_self ..
          · exact List.mem_cons_of_mem _ ((ih c hc).mpr (Or.inl hm))
        · obtain ⟨c, hc, he⟩ := List.mem_flatMap.mp he
          exact List.mem_flatMap.mpr
            ⟨c, hc, List.mem_cons_of_mem _ ((ih c hc).mpr (Or.inr ⟨e, he, hbound⟩))⟩

omit [Ranged α] in
/-- A single leaf has no keys that lead away. -/
theorem inner_of_depth {t : SepTree α d} (h : d = 0) : t.inner = [] := by
  subst h
  rfl

omit [Ranged α] in
theorem separators_of_inner {t : SepTree α d} {k : ℕ} (h : k ∈ t.inner) : k ∈ t.separators := by
  induction t with
  | leaf b es => cases h
  | node b cs ih =>
      rcases List.mem_append.mp h with h | h
      · obtain ⟨c, hc, rfl⟩ := List.mem_map.mp h
        exact List.mem_flatMap.mpr ⟨c, List.mem_of_mem_tail hc, List.mem_cons_self ..⟩
      · obtain ⟨c, hc, h⟩ := List.mem_flatMap.mp h
        exact List.mem_flatMap.mpr ⟨c, hc, List.mem_cons_of_mem _ (ih c hc h)⟩

/-- In a tree with sorted marks the entries are sorted and do not overlap. -/
theorem items_sorted {t : SepTree α d} (h : t.marks.Pairwise (· ≤ ·)) :
    t.items.Pairwise fun e e' => stop e ≤ first e' := by
  have hb := List.Pairwise.sublist t.bounds_sublist h
  generalize t.items = es at hb
  induction es with
  | nil => exact List.Pairwise.nil
  | cons e es ih =>
      rw [List.flatMap_cons, List.pairwise_append] at hb
      obtain ⟨-, hes, hlt⟩ := hb
      refine List.pairwise_cons.mpr ⟨?_, ih hes⟩
      intro e' he'
      exact hlt (stop e) (by simp) (first e') (List.mem_flatMap.mpr ⟨e', he', by simp⟩)

end Ranged

/-! ## Properties of all nodes -/

/-- Every subtree has the property `p`. -/
def All (p : ∀ {d : ℕ}, SepTree α d → Prop) : {d : ℕ} → SepTree α d → Prop
  | 0, t => p t
  | _ + 1, node b cs => p (node b cs) ∧ ∀ c ∈ cs, c.2.All p

section All

variable {p q : ∀ {d : ℕ}, SepTree α d → Prop}

theorem all_leaf {b : ℕ} {es : List α} : (leaf b es).All p ↔ p (leaf b es) := Iff.rfl

theorem all_node {b : ℕ} {cs : List (ℕ × SepTree α d)} :
    (node b cs).All p ↔ p (node b cs) ∧ ∀ c ∈ cs, c.2.All p := Iff.rfl

theorem All.self {t : SepTree α d} (h : t.All p) : p t := by
  cases t with
  | leaf b es => exact h
  | node b cs => exact h.1

theorem All.imp {t : SepTree α d} (h : t.All p)
    (himp : ∀ {d : ℕ} (u : SepTree α d), u.addr ∈ t.addrs → p u → q u) : t.All q := by
  induction t with
  | leaf b es => exact himp _ (by simp) h
  | node b cs ih =>
      rcases all_node.mp h with ⟨hp, hcs⟩
      refine all_node.mpr ⟨himp _ (addr_mem_addrs _) hp, fun c hc => ih c hc (hcs c hc) ?_⟩
      intro d u hu
      exact himp u (mem_addrs_node hc hu)

theorem All.and {t : SepTree α d} (hp : t.All p) (hq : t.All q) : t.All fun u => p u ∧ q u := by
  induction t with
  | leaf b es => exact ⟨hp, hq⟩
  | node b cs ih =>
      rcases all_node.mp hp with ⟨hp, hps⟩
      rcases all_node.mp hq with ⟨hq, hqs⟩
      exact all_node.mpr ⟨⟨hp, hq⟩, fun c hc => ih c hc (hps c hc) (hqs c hc)⟩

/-- Every subtree but the whole has the property `p`. -/
def Below (p : ∀ {d : ℕ}, SepTree α d → Prop) : {d : ℕ} → SepTree α d → Prop
  | 0, _ => True
  | _ + 1, node _ cs => ∀ c ∈ cs, c.2.All p

theorem all_iff {t : SepTree α d} : t.All p ↔ p t ∧ t.Below p := by
  cases t with
  | leaf b es => exact (and_iff_left trivial).symm
  | node b cs => exact Iff.rfl

theorem All.below {t : SepTree α d} (h : t.All p) : t.Below p := (all_iff.mp h).2

theorem Below.imp {t : SepTree α d} (h : t.Below p)
    (himp : ∀ {d : ℕ} (u : SepTree α d), u.addr ∈ t.below → p u → q u) : t.Below q := by
  cases t with
  | leaf b es => trivial
  | node b cs =>
      intro c hc
      exact (h c hc).imp fun u hu => himp u (mem_sum_addrs.mpr ⟨c, hc, hu⟩)

theorem Below.withAddr {t : SepTree α d} (h : t.Below p) (b : ℕ) : (t.withAddr b).Below p := by
  cases t with
  | leaf a es => trivial
  | node a cs => exact h

end All

/-- A parent's keys are the first keys of its children. -/
def ExactAt [Ranged α] : {d : ℕ} → SepTree α d → Prop
  | 0, _ => True
  | _ + 1, node _ cs => ∀ c ∈ cs, c.2.keys.head? = some c.1

/-- An inner node has a child, a leaf has entries as `P` wants. -/
def BushyAt (P : List α → Prop) : {d : ℕ} → SepTree α d → Prop
  | 0, leaf _ es => P es
  | _ + 1, node _ cs => cs ≠ []

/-- The keys of an inner node increase. -/
def OrderedAt : {d : ℕ} → SepTree α d → Prop
  | 0, _ => True
  | _ + 1, node _ cs => (cs.map fun c => c.1).Pairwise (· < ·)

abbrev Exact [Ranged α] (t : SepTree α d) : Prop := t.All ExactAt

abbrev Bushy (P : List α → Prop) (t : SepTree α d) : Prop := t.All (BushyAt P)

abbrev Ordered (t : SepTree α d) : Prop := t.All OrderedAt

/-- Where keys are exact, the first key is the first key of an entry. -/
theorem Exact.head?_keys [Ranged α] {t : SepTree α d} (h : t.Exact) :
    t.keys.head? = t.items.head?.map first := by
  induction t with
  | leaf b es => cases es <;> rfl
  | node b cs ih =>
      rcases cs with _ | ⟨c, cs⟩
      · rfl
      · rcases all_node.mp h with ⟨hp, hcs⟩
        have hkey : c.2.keys.head? = some c.1 := hp c (by simp)
        have hitem := ih c (by simp) (hcs c (by simp))
        rw [hkey] at hitem
        rcases hitems : c.2.items with _ | ⟨e, es⟩
        · rw [hitems] at hitem; cases hitem
        · rw [hitems] at hitem
          simpa [hitems] using hitem

/-- Where keys are exact, each is the first key of an entry. -/
theorem Exact.exists_first [Ranged α] {t : SepTree α d} (h : t.Exact) {k : ℕ}
    (hk : k ∈ t.separators) : ∃ e ∈ t.items, k = first e := by
  induction t with
  | leaf b es => cases hk
  | node b cs ih =>
      obtain ⟨hkeys, hcs⟩ := all_node.mp h
      obtain ⟨c, hc, hk⟩ := List.mem_flatMap.mp hk
      rcases List.mem_cons.mp hk with rfl | hk
      · have hhead := Exact.head?_keys (hcs c hc)
        rw [hkeys c hc, eq_comm, Option.map_eq_some_iff] at hhead
        obtain ⟨e, he, hfirst⟩ := hhead
        exact ⟨e, List.mem_flatMap.mpr ⟨c, hc, List.mem_of_head? he⟩, hfirst.symm⟩
      · obtain ⟨e, he, hfirst⟩ := ih c hc (hcs c hc) hk
        exact ⟨e, List.mem_flatMap.mpr ⟨c, hc, he⟩, hfirst⟩

end SepTree

end EspLwext4
