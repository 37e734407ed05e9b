import EspLwext4.Lib.TreeSurgery

/-!
# Searching by separators

`pick` walks a list of keyed entries as far as the keys allow; `seek` does so in every
node on the way down. In a tree whose keys bound what is below them, the entry found
is the one a linear scan over all entries finds (`seek_covers`).
-/

namespace EspLwext4

open Ranged

variable {α β : Type} {d D : ℕ}

/-! ## One node -/

/-- From `x` on, walk on while the next key is at most `v`. -/
def walk (key : β → ℕ) (v : ℕ) : β → List β → β
  | x, [] => x
  | x, y :: l => if key y ≤ v then walk key v y l else x

/-- The entry `v` belongs to. The first entry takes all that lies before it, too. -/
def pick (key : β → ℕ) (v : ℕ) : List β → Option β
  | [] => none
  | x :: l => some (walk key v x l)

section Pick

variable {key : β → ℕ} {v : ℕ} {x : β} {l r : List β}

theorem walk_append (hl : ∀ y ∈ l, key y ≤ v) (y : β) :
    walk key v x (l ++ y :: r) = if key y ≤ v then walk key v y r else walk key v x l := by
  induction l generalizing x with
  | nil => rfl
  | cons z l ih =>
      have hz : key z ≤ v := hl z (by simp)
      rw [List.cons_append, walk, if_pos hz, ih fun w hw => hl w (List.mem_cons_of_mem z hw), walk,
        if_pos hz]

theorem walk_stop (h : ∀ y ∈ r.head?, v < key y) : walk key v x r = x := by
  rcases r with _ | ⟨y, r⟩
  · rfl
  · exact if_neg (Nat.not_le.mpr (h y rfl))

/-- Where the keys say so, the walk ends. -/
theorem pick_eq (hsorted : (l ++ x :: r).Pairwise fun y z => key y ≤ key z)
    (hx : l = [] ∨ key x ≤ v) (hr : ∀ y ∈ r.head?, v < key y) :
    pick key v (l ++ x :: r) = some x := by
  rcases l with _ | ⟨z, l⟩
  · exact congrArg some (walk_stop hr)
  · have hle : key x ≤ v := hx.resolve_left (List.cons_ne_nil z l)
    have hl : ∀ y ∈ l, key y ≤ v := by
      intro y hy
      have hyx := (List.pairwise_append.mp hsorted).2.2 y (List.mem_cons_of_mem z hy) x (by simp)
      exact Nat.le_trans hyx hle
    show some (walk key v z (l ++ x :: r)) = some x
    rw [walk_append hl, if_pos hle, walk_stop hr]

/-- What the picked entry looks like from its place in the list. -/
theorem pick_split (h : pick key v l = some x) :
    ∃ l₁ r, l = l₁ ++ x :: r ∧ (l₁ = [] ∨ key x ≤ v) ∧ ∀ y ∈ r.head?, v < key y := by
  rcases l with _ | ⟨y, l⟩
  · cases h
  · obtain rfl := Option.some.inj h
    clear h
    induction l generalizing y with
    | nil => exact ⟨[], [], rfl, Or.inl rfl, by simp⟩
    | cons z l ih =>
        rw [walk]
        split
        · rename_i hz
          obtain ⟨l₁, r, hsplit, hle, hlt⟩ := ih z
          refine ⟨y :: l₁, r, by rw [hsplit]; rfl, Or.inr ?_, hlt⟩
          rcases hle with h0 | hle
          · rw [h0] at hsplit
            rw [← (List.cons.inj hsplit).1]
            exact hz
          · exact hle
        · rename_i hz
          exact ⟨[], z :: l, rfl, Or.inl rfl, by simpa using hz⟩

theorem pick_mem (h : pick key v l = some x) : x ∈ l := by
  obtain ⟨l₁, r, rfl, -⟩ := pick_split h
  simp

/-- Where no key but the first tells `v` from `w`, the walk ends alike. -/
theorem pick_alike {w : ℕ}
    (h : ∀ y ∈ l.tail, key y ≤ v ↔ key y ≤ w) : pick key v l = pick key w l := by
  rcases l with _ | ⟨x, l⟩
  · rfl
  · refine congrArg some ?_
    change ∀ y ∈ l, key y ≤ v ↔ key y ≤ w at h
    induction l generalizing x with
    | nil => rfl
    | cons y l ih =>
        have hy := h y (by simp)
        have hl := fun z hz => h z (List.mem_cons_of_mem y hz)
        rw [walk, walk, ih y hl]
        simp only [hy]

/-- In sorted entries cut in two, the walk ends in the right part or in the left. -/
theorem pick_append_of_le {y : β} (hl : ∀ z ∈ l, key z ≤ key y) (hy : key y ≤ v) :
    pick key v (l ++ y :: r) = pick key v (y :: r) := by
  rcases l with _ | ⟨x, l⟩
  · rfl
  · show some (walk key v x (l ++ y :: r)) = some (walk key v y r)
    have hle : ∀ z ∈ l, key z ≤ v := fun z hz =>
      Nat.le_trans (hl z (List.mem_cons_of_mem x hz)) hy
    rw [walk_append hle, if_pos hy]

theorem pick_append_of_lt (hne : l ≠ []) (hr : ∀ y ∈ r.head?, v < key y) :
    pick key v (l ++ r) = pick key v l := by
  rcases l with _ | ⟨x, l⟩
  · exact absurd rfl hne
  · refine congrArg some ?_
    clear hne
    show walk key v x (l ++ r) = walk key v x l
    induction l generalizing x with
    | nil => exact walk_stop hr
    | cons z l ih => rw [List.cons_append, walk, walk, ih]

/-- Lists with the same keys lead to entries in the same place. -/
theorem walk_rel {R : β → β → Prop} (hkey : ∀ y z, R y z → key y = key z)
    (h : List.Forall₂ R l r) : ∀ {x y : β}, R x y → R (walk key v x l) (walk key v y r) := by
  induction h with
  | nil => exact fun hxy => hxy
  | cons hzw _ ih =>
      intro x y hxy
      rw [walk, walk, hkey _ _ hzw]
      split
      · exact ih hzw
      · exact hxy

/-- What is read off the entry found. -/
theorem map_pick_congr {γ : Type} {f : β → γ}
    (h : List.Forall₂ (fun y z => key y = key z ∧ f y = f z) l r) :
    (pick key v l).map f = (pick key v r).map f := by
  cases h with
  | nil => rfl
  | cons hxy h => exact congrArg some (walk_rel (fun _ _ h => h.1) h hxy).2

/-- Where the walk ends depends on its start only when it ends there. -/
theorem walk_start {γ : Type} {f : β → γ} {x y : β} (h : f x = f y) :
    f (walk key v x l) = f (walk key v y l) := by
  rcases l with _ | ⟨z, l⟩
  · exact h
  · rw [walk, walk]
    split
    · rfl
    · exact h

/-- An entry `x` cut in two, `x'` and `y`: the walk ends in the part that has what it looks for. -/
theorem pick_beside {γ : Type} {f : β → γ} {x x' y : β}
    (hsorted : (l ++ x :: y :: r).Pairwise fun y z => key y ≤ key z) (hkey : key x' = key x)
    (hlow : v < key y → f x' = f x) (hup : key y ≤ v → f y = f x) :
    (pick key v (l ++ x' :: y :: r)).map f = (pick key v (l ++ x :: r)).map f := by
  rw [List.pairwise_append, List.pairwise_cons, List.pairwise_cons] at hsorted
  obtain ⟨-, ⟨hx, hy, -⟩, hl⟩ := hsorted
  have hxy : key x ≤ key y := hx y (by simp)
  have happend : l ++ x' :: y :: r = (l ++ [x']) ++ y :: r := by simp
  rw [happend]
  rcases Nat.lt_or_ge v (key y) with hv | hv
  · have hr : ∀ z ∈ r.head?, v < key z := fun z hz =>
      Nat.lt_of_lt_of_le hv (hy z (List.mem_of_mem_head? hz))
    have happend' : l ++ x :: r = (l ++ [x]) ++ r := by simp
    rw [happend', pick_append_of_lt (by simp) (by simpa using hv), pick_append_of_lt (by simp) hr]
    exact map_pick_congr (List.rel_append (List.forall₂_same.mpr fun _ _ => ⟨rfl, rfl⟩)
      (.cons ⟨hkey, hlow hv⟩ .nil))
  · have hle : ∀ z ∈ l ++ [x'], key z ≤ key y := by
      intro z hz
      rcases List.mem_append.mp hz with hz | hz
      · exact hl z hz y (by simp)
      · rw [List.mem_singleton.mp hz, hkey]
        exact hxy
    rw [pick_append_of_le hle hv,
      pick_append_of_le (fun z hz => hl z hz x (by simp)) (Nat.le_trans hxy hv)]
    exact congrArg some (walk_start (hup hv))

/-- The part of sorted entries that the walk ends in. -/
theorem pick_drop {mid k : ℕ} (hsorted : (l.map key).Pairwise (· ≤ ·))
    (hk : ((l.map key).drop mid).head? = some k) (hv : k ≤ v) :
    pick key v (l.drop mid) = pick key v l := by
  rw [← List.map_drop, List.head?_map, Option.map_eq_some_iff] at hk
  obtain ⟨y, hy, rfl⟩ := hk
  obtain ⟨r, hdrop⟩ := List.head?_eq_some_iff.mp hy
  rw [List.pairwise_map, ← List.take_append_drop mid l, List.pairwise_append] at hsorted
  have hle : ∀ z ∈ l.take mid, key z ≤ key y := fun z hz =>
    hsorted.2.2 z hz y (by rw [hdrop]; simp)
  conv_rhs => rw [← List.take_append_drop mid l, hdrop, pick_append_of_le hle hv]
  rw [hdrop]

theorem pick_take {mid k : ℕ} (h0 : 0 < mid) (hk : ((l.map key).drop mid).head? = some k)
    (hv : v < k) : pick key v (l.take mid) = pick key v l := by
  rw [← List.map_drop, List.head?_map, Option.map_eq_some_iff] at hk
  obtain ⟨y, hy, rfl⟩ := hk
  have hne : l.take mid ≠ [] := by
    rintro h
    rcases List.take_eq_nil_iff.mp h with rfl | rfl
    · exact Nat.lt_irrefl 0 h0
    · simp at hy
  conv_rhs => rw [← List.take_append_drop mid l]
  refine (pick_append_of_lt hne fun z hz => ?_).symm
  rw [hy] at hz
  obtain rfl := Option.some.inj hz
  exact hv

end Pick

/-! ## A tree -/

section Ranged

variable [Ranged α]

/-- The entry that `v` belongs to by the keys on the way down. -/
def SepTree.seek (v : ℕ) : {d : ℕ} → SepTree α d → Option α
  | 0, .leaf _ es => pick first v es
  | _ + 1, .node _ cs => (pick (fun c => c.1) v cs).bind fun c => c.2.seek v

namespace SepTree

variable {v w : ℕ}

@[simp] theorem seek_leaf (b : ℕ) (es : List α) : (leaf b es).seek v = pick first v es := rfl

@[simp] theorem seek_node (b : ℕ) (cs : List (ℕ × SepTree α d)) :
    (node b cs).seek v = (pick (fun c => c.1) v cs).bind fun c => c.2.seek v := rfl

theorem seek_node_eq (b : ℕ) (cs : List (ℕ × SepTree α d)) :
    (node b cs).seek v = ((pick (fun c => c.1) v cs).map fun c => c.2.seek v).join := by
  rw [seek_node]
  cases pick (fun c : ℕ × SepTree α d => c.1) v cs <;> rfl

@[simp] theorem seek_withAddr (b : ℕ) (t : SepTree α d) : (t.withAddr b).seek v = t.seek v := by
  cases t <;> rfl

/-- Keys bound the entries below them, and entries of a leaf do not overlap. -/
def BoundedAt : {d : ℕ} → SepTree α d → Prop
  | 0, leaf _ es => es.Pairwise fun e e' => stop e ≤ first e'
  | _ + 1, node _ cs => (∀ c ∈ cs, ∀ e ∈ c.2.items, c.1 ≤ first e) ∧
      cs.Pairwise fun c k => ∀ e ∈ c.2.items, stop e ≤ k.1

abbrev Bounded (t : SepTree α d) : Prop := t.All BoundedAt

/-- The keys of the root node are sorted. -/
def SortedAt (t : SepTree α d) : Prop := t.keys.Pairwise (· ≤ ·)

abbrev Sorted (t : SepTree α d) : Prop := t.All SortedAt

/-- Sorted marks bound everything. -/
theorem bounded_of_sorted {t : SepTree α d} (h : t.marks.Pairwise (· ≤ ·)) : t.Bounded := by
  induction t with
  | leaf b es => exact items_sorted (t := leaf b es) h
  | node b cs ih =>
      rw [marks_node, List.pairwise_flatMap] at h
      obtain ⟨hself, hcross⟩ := h
      refine all_node.mpr ⟨⟨?_, ?_⟩, ?_⟩
      · intro c hc e he
        exact (List.pairwise_cons.mp (hself c hc)).1 _ (first_mem_marks he)
      · refine hcross.imp fun {c k} hck e he => ?_
        exact hck _ (List.mem_cons_of_mem _ (stop_mem_marks he)) _ (by simp)
      · exact fun c hc => ih c hc (List.pairwise_cons.mp (hself c hc)).2

/-- **The separators lead to the entry.** The entry that covers `v` is the one a search
for `v` ends at. -/
theorem seek_covers {t : SepTree α d} (hb : t.Bounded) (hs : t.Sorted) {e : α}
    (he : e ∈ t.items) (hle : first e ≤ v) (hlt : v < stop e) : t.seek v = some e := by
  induction t with
  | leaf b es =>
      obtain ⟨l, r, rfl⟩ := List.append_of_mem he
      have hsorted : ((l ++ e :: r).map first).Pairwise (· ≤ ·) := hs
      rw [List.pairwise_map] at hsorted
      have hends : (l ++ e :: r).Pairwise fun x y => stop x ≤ first y := hb
      refine pick_eq hsorted (Or.inr hle) fun y hy => ?_
      have hey := (List.pairwise_cons.mp (List.pairwise_append.mp hends).2.1).1
      exact Nat.lt_of_lt_of_le hlt (hey y (List.mem_of_mem_head? hy))
  | node b cs ih =>
      rcases all_node.mp hb with ⟨⟨hlow, hhigh⟩, hbs⟩
      rcases all_node.mp hs with ⟨hkeys, hss⟩
      obtain ⟨c, hc, hec⟩ := List.mem_flatMap.mp he
      have hfound := ih c hc (hbs c hc) (hss c hc) hec
      obtain ⟨l, r, rfl⟩ := List.append_of_mem hc
      have hsorted : ((l ++ c :: r).map fun k => k.1).Pairwise (· ≤ ·) := hkeys
      rw [List.pairwise_map] at hsorted
      have hpick : pick (fun k : ℕ × SepTree α _ => k.1) v (l ++ c :: r) = some c := by
        refine pick_eq hsorted (Or.inr (Nat.le_trans (hlow c hc e hec) hle)) fun k hk => ?_
        have hck := (List.pairwise_cons.mp (List.pairwise_append.mp hhigh).2.1).1 k
          (List.mem_of_mem_head? hk) e hec
        exact Nat.lt_of_lt_of_le hlt hck
      rw [seek_node, hpick]
      exact hfound

/-- An entry of the tree that was found is one of its entries. -/
theorem seek_mem {t : SepTree α d} {e : α} (h : t.seek v = some e) : e ∈ t.items := by
  induction t with
  | leaf b es => exact pick_mem h
  | node b cs ih =>
      rw [seek_node, Option.bind_eq_some_iff] at h
      obtain ⟨c, hc, he⟩ := h
      exact List.mem_flatMap.mpr ⟨c, pick_mem hc, ih c (pick_mem hc) he⟩

/-- Where every node lists something, every search ends somewhere. -/
theorem exists_seek {t : SepTree α d} (h : t.Bushy (· ≠ [])) : ∃ e, t.seek v = some e := by
  have pick_some {β : Type} (key : β → ℕ) {l : List β} (hl : l ≠ []) :
      ∃ x, pick key v l = some x := by
    obtain ⟨x, l, rfl⟩ := List.exists_cons_of_ne_nil hl
    exact ⟨_, rfl⟩
  induction t with
  | leaf b es => exact pick_some first (all_leaf.mp h)
  | node b cs ih =>
      obtain ⟨hne, hcs⟩ := all_node.mp h
      obtain ⟨c, hc⟩ := pick_some (fun c : ℕ × SepTree α _ => c.1) hne
      obtain ⟨e, he⟩ := ih c (pick_mem hc) (hcs c (pick_mem hc))
      exact ⟨e, by rw [seek_node, hc]; exact he⟩

/-- The searches for all keys of an entry end where the one for its first key does. -/
def Undivided (t : SepTree α d) (e : α) : Prop :=
  ∀ v, first e < v → v < stop e → t.seek v = t.seek (first e)

/-- Where neither a key nor the start of an entry tells `v` from `w`, their searches end alike. -/
theorem seek_alike {t : SepTree α d} (hin : ∀ k ∈ t.inner, k ≤ v ↔ k ≤ w)
    (hitems : ∀ e ∈ t.items, first e ≤ v ↔ first e ≤ w) : t.seek v = t.seek w := by
  induction t with
  | leaf b es => exact pick_alike fun e he => hitems e (List.mem_of_mem_tail he)
  | node b cs ih =>
      have hpick : pick (fun c : ℕ × SepTree α _ => c.1) v cs = pick (fun c => c.1) w cs :=
        pick_alike fun c hc => hin c.1 (List.mem_append_left _ (List.mem_map.mpr ⟨c, hc, rfl⟩))
      rw [seek_node, seek_node, hpick]
      refine Option.bind_congr fun c hc => ?_
      have hc : c ∈ cs := pick_mem hc
      refine ih c hc (fun k hk => hin k ?_) fun e he => hitems e ?_
      · exact List.mem_append_right _ (List.mem_flatMap.mpr ⟨c, hc, hk⟩)
      · exact List.mem_flatMap.mpr ⟨c, hc, he⟩

/-- A key behind the first of a node leads away from all that lies before it: no search from
there on ends where one for a smaller key does. -/
theorem seek_divided {t : SepTree α d} (hs : t.marks.Pairwise (· ≤ ·)) (ho : t.Ordered)
    (hpos : ∀ e ∈ t.items, first e < stop e) {k : ℕ} (hk : k ∈ t.inner) (hlt : v < k) {e : α}
    (hv : t.seek v = some e) : t.seek k ≠ some e := by
  induction t with
  | leaf b es => cases hk
  | @node d b cs ih =>
      intro hsk
      rw [seek_node, Option.bind_eq_some_iff] at hv hsk
      obtain ⟨c', hc', he'⟩ := hv
      obtain ⟨c, hc, he⟩ := hsk
      rw [marks_node, List.pairwise_flatMap] at hs
      obtain ⟨hself, hcross⟩ := hs
      obtain ⟨hkeys, hos⟩ := all_node.mp ho
      have hkeys : cs.Pairwise fun x y => x.1 < y.1 := List.pairwise_map.mp hkeys
      have hitem {x : ℕ × SepTree α d} (hx : x ∈ cs) (hex : e ∈ x.2.items) :
          first e ∈ x.1 :: x.2.marks ∧ stop e ∈ x.1 :: x.2.marks ∧ first e < stop e :=
        ⟨List.mem_cons_of_mem _ (first_mem_marks hex), List.mem_cons_of_mem _ (stop_mem_marks hex),
          hpos e (List.mem_flatMap.mpr ⟨x, hx, hex⟩)⟩
      -- both searches go through one child
      have hapart : cs.Pairwise fun x y => ¬ (e ∈ x.2.items ∧ e ∈ y.2.items) := by
        refine hcross.imp_of_mem fun {x y} hx hy hxy hboth => ?_
        have hle := hxy _ (hitem hx hboth.1).2.1 _ (hitem hy hboth.2).1
        have hlt := (hitem hx hboth.1).2.2
        omega
      obtain rfl : c = c' := by
        by_contra hne
        have : Std.Symm fun x y : ℕ × SepTree α d => ¬ (e ∈ x.2.items ∧ e ∈ y.2.items) :=
          ⟨fun _ _ h hboth => h hboth.symm⟩
        exact hapart.forall (pick_mem hc) (pick_mem hc') hne ⟨seek_mem he, seek_mem he'⟩
      obtain ⟨l, r, hcs, -, hr⟩ := pick_split hc
      subst hcs
      obtain ⟨-, hright, hleft⟩ := List.pairwise_append.mp hkeys
      have hr : ∀ z ∈ r, k < z.1 := by
        intro z hz
        rcases r with _ | ⟨y, r⟩
        · cases hz
        · have hy : k < y.1 := hr y rfl
          rcases List.mem_cons.mp hz with rfl | hz
          · exact hy
          · exact hy.trans ((List.pairwise_cons.mp (List.pairwise_cons.mp hright).2).1 z hz)
      have hle : l ≠ [] → c.1 ≤ v := by
        intro hne
        obtain ⟨l', r', hcs', hle', -⟩ := pick_split hc'
        refine hle'.resolve_left ?_
        rintro rfl
        obtain ⟨x, l, rfl⟩ := List.exists_cons_of_ne_nil hne
        obtain ⟨rfl, -⟩ := List.cons.inj hcs'
        exact Nat.lt_irrefl _ (hleft x (by simp) x (by simp))
      rcases List.mem_append.mp hk with hk | hk
      · obtain ⟨y, hy, rfl⟩ := List.mem_map.mp hk
        rcases l with _ | ⟨x, l⟩
        · exact Nat.lt_irrefl _ (hr y hy)
        · have hcv := hle (by simp)
          rcases List.mem_append.mp hy with hy | hy
          · have := hleft y (List.mem_cons_of_mem x hy) c (by simp)
            omega
          · rcases List.mem_cons.mp hy with rfl | hy
            · omega
            · exact Nat.lt_irrefl _ (hr y hy)
      · obtain ⟨y, hy, hky⟩ := List.mem_flatMap.mp hk
        have hmark : k ∈ y.1 :: y.2.marks :=
          List.mem_cons_of_mem _ (mem_marks.mpr (Or.inl (separators_of_inner hky)))
        rcases List.mem_append.mp hy with hyl | hyr
        · have hbefore := (List.pairwise_append.mp hcross).2.2 y hyl c (by simp) k hmark c.1 (by simp)
          have := hle (List.ne_nil_of_mem hyl)
          omega
        · rcases List.mem_cons.mp hyr with rfl | hyr
          · refine ih y hy (List.pairwise_cons.mp (hself y hy)).2 (hos y hy) (fun x hx => ?_) hky he' he
            exact hpos x (List.mem_flatMap.mpr ⟨y, hy, hx⟩)
          · have hbehind := (List.pairwise_cons.mp (hself y hy)).1 k
              (mem_marks.mpr (Or.inl (separators_of_inner hky)))
            have := hr y hyr
            omega

end SepTree

namespace Ctx

variable {v w : ℕ}

/-- A context the search goes through. -/
theorem seek_plug : ∀ {d : ℕ} {c : Ctx α d D} {t : SepTree α d}, c.Chosen v →
    c.Around SepTree.SortedAt t → (c.plug t).seek v = t.seek v := by
  intro d c
  induction c with
  | nil => exact fun _ _ => rfl
  | cons f c ih =>
      rintro t ⟨hle, hlt, hc⟩ ⟨hsorted, -, haround⟩
      rw [plug_cons, ih hc haround]
      have hkeys : ((f.left ++ (f.key, t) :: f.right).map fun k => k.1).Pairwise (· ≤ ·) := hsorted
      rw [List.pairwise_map] at hkeys
      have hpick : pick (fun k : ℕ × SepTree α _ => k.1) v (f.left ++ (f.key, t) :: f.right) =
          some (f.key, t) := pick_eq hkeys hle hlt
      show (SepTree.node f.addr (f.left ++ (f.key, t) :: f.right)).seek v = _
      rw [SepTree.seek_node, hpick]
      rfl

/-- A search for what lies behind `v` goes into the hole that one for `v` goes into, or ends
behind it. -/
theorem Chosen.later : ∀ {d : ℕ} {c : Ctx α d D}, c.Chosen v → v ≤ w → c.Chosen w ∨
    ∀ (t : SepTree α d) (e : α), c.Around SepTree.SortedAt t → (c.plug t).seek w = some e →
      e ∈ c.itemsRight := by
  intro d c
  induction c with
  | nil => exact fun _ _ => Or.inl trivial
  | cons f c ih =>
      rintro ⟨hle, -, hc⟩ hvw
      have hle : f.left = [] ∨ f.key ≤ w := hle.imp id fun h => h.trans hvw
      rcases ih hc hvw with hchosen | hright
      · rcases hr : f.right with _ | ⟨k, ks⟩
        · exact Or.inl ⟨hle, by simp [hr], hchosen⟩
        rcases Nat.lt_or_ge w k.1 with hlt | hge
        · exact Or.inl ⟨hle, by simpa [hr] using hlt, hchosen⟩
        · refine Or.inr fun t e ⟨hsorted, _, haround⟩ he => ?_
          have hkeys : (((f.left ++ [(f.key, t)]) ++ k :: ks).map fun x => x.1).Pairwise (· ≤ ·) := by
            simpa [SepTree.SortedAt, Frame.fill, hr] using hsorted
          rw [List.pairwise_map, List.pairwise_append] at hkeys
          rw [plug_cons, seek_plug hchosen haround] at he
          have hfill : (f.fill t).seek w = (pick (fun x : ℕ × SepTree α _ => x.1) w (k :: ks)).bind
              fun x => x.2.seek w := by
            have hsplit : f.left ++ (f.key, t) :: f.right = (f.left ++ [(f.key, t)]) ++ k :: ks := by
              simp [hr]
            show (SepTree.node f.addr (f.left ++ (f.key, t) :: f.right)).seek w = _
            rw [hsplit, SepTree.seek_node,
              pick_append_of_le (fun z hz => hkeys.2.2 z hz k (by simp)) hge]
          rw [hfill, Option.bind_eq_some_iff] at he
          obtain ⟨x, hx, he⟩ := he
          refine List.mem_append_left _ (List.mem_flatMap.mpr ⟨x, ?_, SepTree.seek_mem he⟩)
          rw [hr]
          exact pick_mem hx
      · refine Or.inr fun t e ⟨_, _, haround⟩ he => ?_
        exact List.mem_append_right _ (hright (f.fill t) e haround he)

/-- A search that ends alike in two trees does so in every context. -/
theorem seek_congr {t t' : SepTree α d} (h : t.seek v = t'.seek v) :
    ∀ c : Ctx α d D, (c.plug t).seek v = (c.plug t').seek v := by
  intro c
  induction c with
  | nil => exact h
  | cons f c ih =>
      refine ih ?_
      show (SepTree.node f.addr _).seek v = (SepTree.node f.addr _).seek v
      rw [SepTree.seek_node_eq, SepTree.seek_node_eq]
      refine congrArg Option.join (map_pick_congr (List.rel_append ?_ (.cons ⟨rfl, h⟩ ?_)))
      · exact List.forall₂_same.mpr fun _ _ => ⟨rfl, rfl⟩
      · exact List.forall₂_same.mpr fun _ _ => ⟨rfl, rfl⟩

end Ctx

/-! ## A tree taken apart -/

section Surgery

variable {v mid b' k : ℕ} {t u : SepTree α d} {f : Frame α d}

theorem SepTree.seek_upper (hs : t.SortedAt) (hk : (t.keys.drop mid).head? = some k) (hv : k ≤ v) :
    (t.upper mid b').seek v = t.seek v := by
  cases t with
  | leaf b es => exact pick_drop hs hk hv
  | node b cs =>
      show (pick _ v (cs.drop mid)).bind _ = (pick _ v cs).bind _
      rw [pick_drop hs hk hv]

theorem SepTree.seek_lower (h0 : 0 < mid) (hk : (t.keys.drop mid).head? = some k) (hv : v < k) :
    (t.lower mid).seek v = t.seek v := by
  cases t with
  | leaf b es => exact pick_take h0 hk hv
  | node b cs =>
      show (pick _ v (cs.take mid)).bind _ = (pick _ v cs).bind _
      rw [pick_take h0 hk hv]

@[simp] theorem SepTree.seek_raise : (t.raise b' k).seek v = t.seek v := by
  show (t.withAddr b').seek v = t.seek v
  exact seek_withAddr b' t

/-- The upper half is named beside the node, which is whole or cut. -/
theorem Frame.seek_beside {u' up : SepTree α d} (hs : ((f.beside (k, up)).fill u).SortedAt)
    (hlow : v < k → u'.seek v = u.seek v) (hup : k ≤ v → up.seek v = u.seek v) :
    ((f.beside (k, up)).fill u').seek v = (f.fill u).seek v := by
  have hkeys : ((f.left ++ (f.key, u) :: (k, up) :: f.right).map fun c => c.1).Pairwise (· ≤ ·) := hs
  rw [List.pairwise_map] at hkeys
  show (SepTree.node f.addr (f.left ++ (f.key, u') :: (k, up) :: f.right)).seek v =
    (SepTree.node f.addr (f.left ++ (f.key, u) :: f.right)).seek v
  rw [SepTree.seek_node_eq, SepTree.seek_node_eq]
  exact congrArg Option.join (pick_beside hkeys rfl hlow hup)

theorem Frame.seek_split (hs : (f.split u mid b' k).SortedAt) (hu : u.SortedAt) (h0 : 0 < mid)
    (hk : (u.keys.drop mid).head? = some k) : (f.split u mid b' k).seek v = (f.fill u).seek v :=
  seek_beside (u := u) (by simpa [SepTree.SortedAt, split, fill, beside] using hs)
    (SepTree.seek_lower h0 hk) (SepTree.seek_upper hu hk)

end Surgery

/-! ## Trees of another shape -/

/-- `t'` holds the entries of `t`, searches in it end as in `t`, and it has no other keys. -/
structure SepTree.SameContent {e : ℕ} (t : SepTree α d) (t' : SepTree α e) : Prop where
  items : t'.items = t.items
  seek : ∀ v, t'.seek v = t.seek v
  marks : ∀ m ∈ t'.marks, m ∈ t.marks
  exact : t.Exact → t'.Exact

section SameContent

variable {e : ℕ} {t : SepTree α d}

theorem SepTree.SameContent.refl (t : SepTree α d) : SameContent t t :=
  ⟨rfl, fun _ => rfl, fun _ hm => hm, id⟩

theorem SepTree.SameContent.trans {e' : ℕ} {t' : SepTree α e} {t'' : SepTree α e'}
    (h : SameContent t t') (h' : SameContent t' t'') : SameContent t t'' :=
  ⟨h'.items.trans h.items, fun v => (h'.seek v).trans (h.seek v),
    fun m hm => h.marks m (h'.marks m hm), fun ht => h'.exact (h.exact ht)⟩

theorem SepTree.sameContent_raise {b' k : ℕ} (hk : t.keys.head? = some k) :
    SameContent t (t.raise b' k) :=
  ⟨items_raise, fun _ => seek_raise, fun _ hm => mem_marks_raise hk hm, fun ht => ht.raise hk⟩

theorem Ctx.sameContent_split {f : Frame α d} {c : Ctx α (d + 1) D} {u : SepTree α d}
    {mid b' k : ℕ} (hs : (f.split u mid b' k).SortedAt) (hu : u.SortedAt) (h0 : 0 < mid)
    (hk : (u.keys.drop mid).head? = some k) :
    SepTree.SameContent ((Ctx.cons f c).plug u) (c.plug (f.split u mid b' k)) := by
  refine ⟨?_, fun v => Ctx.seek_congr (Frame.seek_split hs hu h0 hk) c,
    fun m hm => mem_marks_split hk hm, fun hex => ?_⟩
  · rw [plug_cons, items_plug, items_plug, Frame.items_split]
  · obtain ⟨hfill, hc⟩ := (all_plug c (f.fill u)).mp hex
    refine (all_plug c _).mpr ⟨Frame.exact_split hfill h0 hk, ?_⟩
    exact around_exact _ _ Frame.head?_keys_split.symm hc

end SameContent

end Ranged

/-! ## The nodes on the way -/

/-- How many entries the nodes have that a search for `v` goes through, from the root on. -/
def SepTree.route (v : ℕ) : {d : ℕ} → SepTree α d → List ℕ
  | 0, .leaf _ es => [es.length]
  | _ + 1, .node _ cs => cs.length :: ((pick (fun c => c.1) v cs).map fun c => c.2.route v).getD []

/-- The same for the nodes above a hole. -/
def Ctx.counts : {d : ℕ} → Ctx α d D → List ℕ
  | _, .nil => []
  | _, .cons f c => c.counts ++ [f.left.length + f.right.length + 1]

section Route

variable {v mid b' k : ℕ} {t u : SepTree α d} {f : Frame α d}

theorem SepTree.length_route_le (t : SepTree α d) : (t.route v).length ≤ d + 1 := by
  induction t with
  | leaf b es => exact Nat.le_refl 1
  | node b cs ih =>
      show (((pick (fun c : ℕ × SepTree α _ => c.1) v cs).map _).getD []).length + 1 ≤ _
      rcases hpick : pick (fun c : ℕ × SepTree α _ => c.1) v cs with _ | c
      · exact Nat.succ_le_succ (Nat.zero_le _)
      · exact Nat.succ_le_succ (ih c (pick_mem hpick))

@[simp] theorem SepTree.route_withAddr (b : ℕ) (t : SepTree α d) :
    (t.withAddr b).route v = t.route v := by
  cases t <;> rfl

theorem SepTree.route_raise : (t.raise b' k).route v = 1 :: t.route v :=
  congrArg (1 :: ·) (route_withAddr b' t)

variable [Ranged α]

theorem SepTree.route_eq (t : SepTree α d) :
    t.route v = t.keys.length :: (t.route v).tail := by
  cases t with
  | leaf b es =>
      rw [keys_leaf, List.length_map]
      rfl
  | node b cs =>
      rw [keys_node, List.length_map]
      rfl

/-- Where the keys lead into the hole. -/
theorem Frame.route_fill (hs : (f.fill t).SortedAt) (hle : f.left = [] ∨ f.key ≤ v)
    (hlt : ∀ c ∈ f.right.head?, v < c.1) :
    (f.fill t).route v = (f.left.length + f.right.length + 1) :: t.route v := by
  have hkeys : ((f.left ++ (f.key, t) :: f.right).map fun c => c.1).Pairwise (· ≤ ·) := hs
  rw [List.pairwise_map] at hkeys
  have hpick : pick (fun c : ℕ × SepTree α d => c.1) v (f.left ++ (f.key, t) :: f.right) =
      some (f.key, t) := pick_eq hkeys hle hlt
  show (f.left ++ (f.key, t) :: f.right).length :: ((pick _ v _).map _).getD [] = _
  rw [hpick, List.length_append, List.length_cons]
  rfl

theorem Ctx.route_plug : ∀ {d : ℕ} {c : Ctx α d D} {t : SepTree α d}, c.Chosen v →
    c.Around SepTree.SortedAt t → (c.plug t).route v = c.counts ++ t.route v := by
  intro d c
  induction c with
  | nil => exact fun _ _ => rfl
  | cons f c ih =>
      rintro t ⟨hle, hlt, hc⟩ ⟨hsorted, -, haround⟩
      rw [plug_cons, ih hc haround, Frame.route_fill hsorted hle hlt, counts, List.append_assoc]
      rfl

theorem SepTree.route_lower (h0 : 0 < mid) (hk : (t.keys.drop mid).head? = some k) (hv : v < k) :
    (t.lower mid).route v = min mid t.keys.length :: (t.route v).tail := by
  cases t with
  | leaf b es =>
      rw [keys_leaf, List.length_map]
      exact congrArg (fun n => [n]) List.length_take
  | node b cs =>
      rw [keys_node, List.length_map]
      show (cs.take mid).length :: ((pick _ v (cs.take mid)).map _).getD [] = _
      rw [pick_take h0 hk hv, List.length_take]
      rfl

theorem SepTree.route_upper (hs : t.SortedAt) (hk : (t.keys.drop mid).head? = some k) (hv : k ≤ v) :
    (t.upper mid b').route v = (t.keys.length - mid) :: (t.route v).tail := by
  cases t with
  | leaf b es =>
      rw [keys_leaf, List.length_map]
      exact congrArg (fun n => [n]) List.length_drop
  | node b cs =>
      rw [keys_node, List.length_map]
      show (cs.drop mid).length :: ((pick _ v (cs.drop mid)).map _).getD [] = _
      rw [pick_drop hs hk hv, List.length_drop]
      rfl

/-- After a split the way leads through one half of the node, and the node above has one
entry more. -/
theorem Frame.route_split (hs : (f.split u mid b' k).SortedAt) (hu : u.SortedAt) (h0 : 0 < mid)
    (hk : (u.keys.drop mid).head? = some k) (hle : f.left = [] ∨ f.key ≤ v)
    (hlt : ∀ c ∈ f.right.head?, v < c.1) :
    ∃ half, half ≤ max mid (u.keys.length - mid) ∧ (f.split u mid b' k).route v =
      (f.left.length + f.right.length + 2) :: half :: (u.route v).tail := by
  rcases Nat.lt_or_ge v k with hv | hv
  · refine ⟨min mid u.keys.length, (Nat.min_le_left _ _).trans (Nat.le_max_left _ _), ?_⟩
    rw [split_eq] at hs ⊢
    rw [route_fill hs hle (by simpa [beside] using hv), SepTree.route_lower h0 hk hv]
    rfl
  · refine ⟨_, Nat.le_max_right _ _, ?_⟩
    -- the hole moves into the upper half
    let g : Frame α d := ⟨f.addr, f.left ++ [(f.key, u.lower mid)], k, f.right⟩
    have hg : g.fill (u.upper mid b') = f.split u mid b' k := by simp [g, fill, split]
    rw [← hg] at hs ⊢
    rw [route_fill hs (Or.inr hv) hlt, SepTree.route_upper hu hk hv]
    simp [g, Nat.add_right_comm]

end Route

end EspLwext4
