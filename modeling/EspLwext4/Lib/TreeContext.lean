import EspLwext4.Lib.SepTree

/-!
# Places in a search tree

A context is the list of frames from a hole up to the root. `plug` fills the
hole. The hole may get another tree (`around_congr`), the keys that name the left
edge above it may change (`rekey`), and a hole may be closed (`prune`).
-/

namespace EspLwext4

open Ranged

variable {α : Type} {d D : ℕ}

/-- An inner node with a hole in the place of one child. -/
structure Frame (α : Type) (d : ℕ) where
  addr : ℕ
  left : List (ℕ × SepTree α d)
  key : ℕ
  right : List (ℕ × SepTree α d)

namespace Frame

variable (f : Frame α d)

def fill (t : SepTree α d) : SepTree α (d + 1) := .node f.addr (f.left ++ (f.key, t) :: f.right)

/-- The other children. -/
def siblings : List (ℕ × SepTree α d) := f.left ++ f.right

/-- The frame with another key above the hole. -/
def withKey (v : ℕ) : Frame α d := { f with key := v }

@[simp] theorem addr_fill (t : SepTree α d) : (f.fill t).addr = f.addr := rfl

@[simp] theorem addr_withKey (v : ℕ) : (f.withKey v).addr = f.addr := rfl

@[simp] theorem left_withKey (v : ℕ) : (f.withKey v).left = f.left := rfl

@[simp] theorem right_withKey (v : ℕ) : (f.withKey v).right = f.right := rfl

@[simp] theorem key_withKey (v : ℕ) : (f.withKey v).key = v := rfl

end Frame

/-- The frames from a hole of depth `d` up to a root of depth `D`. -/
inductive Ctx (α : Type) : ℕ → ℕ → Type
  | nil {d : ℕ} : Ctx α d d
  | cons {d D : ℕ} (f : Frame α d) (c : Ctx α (d + 1) D) : Ctx α d D

namespace Ctx

def plug : {d : ℕ} → Ctx α d D → SepTree α d → SepTree α D
  | _, nil, t => t
  | _, cons f c, t => c.plug (f.fill t)

/-- The entries before the hole. -/
def itemsLeft : {d : ℕ} → Ctx α d D → List α
  | _, nil => []
  | _, cons f c => c.itemsLeft ++ f.left.flatMap fun k => k.2.items

/-- The entries behind the hole. -/
def itemsRight : {d : ℕ} → Ctx α d D → List α
  | _, nil => []
  | _, cons f c => (f.right.flatMap fun k => k.2.items) ++ c.itemsRight

/-- The addresses of all nodes outside the hole. -/
def addrs : {d : ℕ} → Ctx α d D → Multiset ℕ
  | _, nil => 0
  | _, cons f c => f.addr ::ₘ (f.siblings.map fun k => k.2.addrs).sum + c.addrs

/-- The address of the root, when the hole has the address `a`. -/
def rootAddr : {d : ℕ} → Ctx α d D → ℕ → ℕ
  | _, nil, a => a
  | _, cons f c, _ => c.rootAddr f.addr

/-- How many levels the hole lies below the root. -/
def length : {d : ℕ} → Ctx α d D → ℕ
  | _, nil => 0
  | _, cons _ c => c.length + 1

theorem depth_eq : ∀ {d : ℕ} (c : Ctx α d D), D = d + c.length := by
  intro d c
  induction c with
  | nil => rfl
  | cons f c ih => rw [length]; omega

theorem rootAddr_mem : ∀ {d : ℕ} (c : Ctx α d D) (a : ℕ),
    c.rootAddr a = a ∨ c.rootAddr a ∈ c.addrs := by
  intro d c
  induction c with
  | nil => exact fun a => Or.inl rfl
  | cons f c ih =>
      intro a
      right
      rw [rootAddr, addrs, Multiset.cons_add, Multiset.mem_cons, Multiset.mem_add]
      rcases ih f.addr with h | h
      · exact Or.inl h
      · exact Or.inr (Or.inr h)

variable (t t' : SepTree α d)

@[simp] theorem plug_nil : (nil : Ctx α d d).plug t = t := rfl

@[simp] theorem plug_cons (f : Frame α d) (c : Ctx α (d + 1) D) :
    (cons f c).plug t = c.plug (f.fill t) := rfl

theorem items_plug : ∀ {d : ℕ} (c : Ctx α d D) (t : SepTree α d),
    (c.plug t).items = c.itemsLeft ++ t.items ++ c.itemsRight := by
  intro d c
  induction c with
  | nil => intro t; simp [itemsLeft, itemsRight]
  | cons f c ih =>
      intro t
      rw [plug_cons, ih]
      simp [itemsLeft, itemsRight, Frame.fill]

theorem addrs_plug : ∀ {d : ℕ} (c : Ctx α d D) (t : SepTree α d),
    (c.plug t).addrs = c.addrs + t.addrs := by
  intro d c
  induction c with
  | nil => intro t; simp [addrs]
  | cons f c ih =>
      intro t
      rw [plug_cons, ih]
      simp only [addrs, Frame.fill, Frame.siblings, SepTree.addrs_node, List.map_append,
        List.map_cons, List.sum_append, List.sum_cons, Multiset.cons_add]
      rw [Multiset.add_cons]
      congr 1
      abel

theorem addr_plug : ∀ {d : ℕ} (c : Ctx α d D) (t : SepTree α d),
    (c.plug t).addr = c.rootAddr t.addr := by
  intro d c
  induction c with
  | nil => intro t; rfl
  | cons f c ih => intro t; exact ih _

/-- Another subtree, with the addresses `as` more, in the hole. -/
theorem below_plug {c : Ctx α d D} {t u : SepTree α d} {as : Multiset ℕ} (haddr : u.addr = t.addr)
    (haddrs : u.addrs = as + t.addrs) : (c.plug u).below = as + (c.plug t).below := by
  have h := addrs_plug c u
  rw [SepTree.addrs_eq, haddrs, add_left_comm, ← addrs_plug c t, SepTree.addrs_eq (c.plug t),
    Multiset.add_cons, addr_plug, addr_plug, haddr] at h
  exact (Multiset.cons_inj_right _).mp h

/-- In a tree without repeated addresses the hole shares none with its surroundings. -/
theorem nodup_plug {c : Ctx α d D} {t : SepTree α d} (h : (c.plug t).addrs.Nodup) :
    c.addrs.Nodup ∧ t.addrs.Nodup ∧ ∀ a ∈ t.addrs, a ∉ c.addrs := by
  rw [addrs_plug, Multiset.nodup_add] at h
  obtain ⟨hc, ht, hdisj⟩ := h
  exact ⟨hc, ht, fun a ha hac => Multiset.disjoint_left.mp hdisj hac ha⟩

theorem nodup_cons {f : Frame α d} {c : Ctx α (d + 1) D} (h : (cons f c).addrs.Nodup) :
    (∀ k ∈ f.siblings, f.addr ∉ k.2.addrs) ∧ f.addr ∉ c.addrs ∧ c.addrs.Nodup := by
  rw [addrs, Multiset.cons_add, Multiset.nodup_cons, Multiset.nodup_add, Multiset.mem_add,
    not_or] at h
  obtain ⟨⟨hsib, hc⟩, -, hcnodup, -⟩ := h
  exact ⟨fun k hk hin => hsib (SepTree.mem_sum_addrs.mpr ⟨k, hk, hin⟩), hc, hcnodup⟩

/-- What is left of a node once its hole is closed shares no address with its surroundings. -/
theorem siblings_apart {f : Frame α d} {c : Ctx α (d + 1) D} (h : (cons f c).addrs.Nodup) {a : ℕ}
    (ha : a ∈ (SepTree.node f.addr f.siblings).addrs) : a ∉ c.addrs := by
  have heq : (cons f c).addrs = (SepTree.node f.addr f.siblings).addrs + c.addrs := by
    rw [addrs, SepTree.addrs_node]
  rw [heq] at h
  exact Multiset.disjoint_left.mp (Multiset.nodup_add.mp h).2.2 ha

theorem sibling_mem {f : Frame α d} {c : Ctx α (d + 1) D} {k : ℕ × SepTree α d} {a : ℕ}
    (hk : k ∈ f.siblings) (ha : a ∈ k.2.addrs) : a ∈ (cons f c).addrs := by
  rw [addrs, Multiset.cons_add, Multiset.mem_cons, Multiset.mem_add]
  exact Or.inr (Or.inl (SepTree.mem_sum_addrs.mpr ⟨k, hk, ha⟩))

theorem addr_mem_cons {f : Frame α d} {c : Ctx α (d + 1) D} : f.addr ∈ (cons f c).addrs := by
  rw [addrs, Multiset.cons_add]
  exact Multiset.mem_cons_self _ _

theorem outer_mem {f : Frame α d} {c : Ctx α (d + 1) D} {a : ℕ} (ha : a ∈ c.addrs) :
    a ∈ (cons f c).addrs := by
  rw [addrs]
  exact Multiset.mem_add.mpr (Or.inr ha)

/-! ## Properties of all nodes around a hole -/

section All

variable {p q : ∀ {d : ℕ}, SepTree α d → Prop}

/-- Every subtree outside the hole has the property `p` once `t` is in the hole. -/
def Around (p : ∀ {d : ℕ}, SepTree α d → Prop) : {d : ℕ} → Ctx α d D → SepTree α d → Prop
  | _, nil, _ => True
  | _, cons f c, t => p (f.fill t) ∧ (∀ k ∈ f.siblings, k.2.All p) ∧ c.Around p (f.fill t)

theorem all_plug : ∀ {d : ℕ} (c : Ctx α d D) (t : SepTree α d),
    (c.plug t).All p ↔ t.All p ∧ c.Around p t := by
  intro d c
  induction c with
  | nil => intro t; simp [Around]
  | cons f c ih =>
      intro t
      have hfill : (f.fill t).All p ↔ p (f.fill t) ∧ t.All p ∧ ∀ k ∈ f.siblings, k.2.All p := by
        unfold Frame.fill Frame.siblings
        rw [SepTree.all_node]
        simp only [List.mem_append, List.mem_cons]
        constructor
        · rintro ⟨h, hall⟩
          exact ⟨h, hall (f.key, t) (by simp), fun k hk => hall k (by tauto)⟩
        · rintro ⟨h, ht, hall⟩
          refine ⟨h, fun k hk => ?_⟩
          rcases hk with hk | rfl | hk
          · exact hall k (Or.inl hk)
          · exact ht
          · exact hall k (Or.inr hk)
      rw [plug_cons, ih, hfill, Around]
      tauto

/-- What holds of every filling of a hole holds of every subtree. -/
theorem all_of_plug {t : SepTree α D}
    (h : ∀ {d : ℕ} (c : Ctx α d D) (u : SepTree α d), c.plug u = t → p u) : t.All p := by
  have below {d : ℕ} (u : SepTree α d) : ∀ c : Ctx α d D, c.plug u = t → u.All p := by
    induction u with
    | leaf b es => exact fun c hc => h c _ hc
    | node b cs ih =>
        intro c hc
        refine SepTree.all_node.mpr ⟨h c _ hc, fun k hk => ?_⟩
        obtain ⟨l, r, rfl⟩ := List.append_of_mem hk
        exact ih k hk (.cons ⟨b, l, k.1, r⟩ c) hc
  exact below t .nil rfl

theorem around_imp : ∀ {d : ℕ} {c : Ctx α d D} {t : SepTree α d}, c.Around p t →
    (∀ {d : ℕ} (u : SepTree α d), u.addr ∈ c.addrs → p u → q u) → c.Around q t := by
  intro d c
  induction c with
  | nil => intro t _ _; trivial
  | cons f c ih =>
      rintro t ⟨hf, hs, hc⟩ himp
      refine ⟨himp _ (by simp [addrs]) hf, fun k hk => (hs k hk).imp fun u hu => himp u ?_,
        ih hc fun u hu => himp u (by simp [addrs, hu])⟩
      rw [addrs, Multiset.cons_add, Multiset.mem_cons, Multiset.mem_add]
      exact Or.inr (Or.inl (SepTree.mem_sum_addrs.mpr ⟨k, hk, hu⟩))

/-- A property that does not look at what differs between `t` and `t'`. -/
theorem around_congr {r : ∀ {d : ℕ}, SepTree α d → SepTree α d → Prop}
    (hfill : ∀ {d : ℕ} (f : Frame α d) (t t' : SepTree α d), r (f.fill t) (f.fill t'))
    (hp : ∀ {d : ℕ} (f : Frame α d) (t t' : SepTree α d), r t t' → p (f.fill t) → p (f.fill t')) :
    ∀ {d : ℕ} {c : Ctx α d D} {t t' : SepTree α d}, r t t' → c.Around p t → c.Around p t' := by
  intro d c
  induction c with
  | nil => intro t t' _ _; trivial
  | cons f c ih =>
      rintro t t' hs ⟨hf, hsib, hc⟩
      exact ⟨hp f t t' hs hf, hsib, ih (hfill f t t') hc⟩

/-- The keys of the nodes around do not depend on what is in the hole. -/
theorem around_ordered {c : Ctx α d D} (hc : c.Around SepTree.OrderedAt t) :
    c.Around SepTree.OrderedAt t' := by
  refine around_congr (r := fun _ _ => True) (fun _ _ _ => trivial) (fun f t t' _ hf => ?_)
    trivial hc
  simpa [Frame.fill, SepTree.OrderedAt, SepTree.node] using hf

theorem around_bushy {P : List α → Prop} {c : Ctx α d D} (hc : c.Around (SepTree.BushyAt P) t) :
    c.Around (SepTree.BushyAt P) t' := by
  refine around_congr (r := fun _ _ => True) (fun _ _ _ => trivial) (fun f t t' _ _ => ?_)
    trivial hc
  simp [Frame.fill, SepTree.BushyAt, SepTree.node]

end All

section Ranged

variable [Ranged α]

theorem around_exact {c : Ctx α d D} (h : t.keys.head? = t'.keys.head?)
    (hc : c.Around SepTree.ExactAt t) : c.Around SepTree.ExactAt t' := by
  refine around_congr (r := fun t t' => t.keys.head? = t'.keys.head?) (fun f t t' => ?_)
    (fun f t t' hs hf => ?_) h hc
  · simp [Frame.fill]
  · intro k hk
    simp only [List.mem_append, List.mem_cons] at hk
    rcases hk with hk | rfl | hk
    · exact hf k (by simp [hk])
    · rw [← hs]; exact hf (f.key, t) (by simp)
    · exact hf k (by simp [hk])

/-! ## Marks around a hole -/

/-- The marks of a list of named trees. -/
def marksOf (cs : List (ℕ × SepTree α d)) : List ℕ := cs.flatMap fun k => k.1 :: k.2.marks

/-- The marks before the hole. -/
def pre : {d : ℕ} → Ctx α d D → List ℕ
  | _, nil => []
  | _, cons f c => c.pre ++ marksOf f.left ++ [f.key]

/-- The marks behind the hole. -/
def post : {d : ℕ} → Ctx α d D → List ℕ
  | _, nil => []
  | _, cons f c => marksOf f.right ++ c.post

/-- The marks before the keys of the left edge the hole is on. -/
def kept : {d : ℕ} → Ctx α d D → List ℕ
  | _, nil => []
  | _, cons f c => if f.left.isEmpty then c.kept else c.pre ++ marksOf f.left

/-- The keys of the left edge the hole is on, outermost first. -/
def edge : {d : ℕ} → Ctx α d D → List ℕ
  | _, nil => []
  | _, cons f c => if f.left.isEmpty then c.edge ++ [f.key] else [f.key]

/-- The outermost key of that edge, unless it is the left edge of the whole tree. -/
def anchor : {d : ℕ} → Ctx α d D → Option ℕ
  | _, nil => none
  | _, cons f c => if f.left.isEmpty then c.anchor else some f.key

theorem marks_plug : ∀ {d : ℕ} (c : Ctx α d D) (t : SepTree α d),
    (c.plug t).marks = c.pre ++ t.marks ++ c.post := by
  intro d c
  induction c with
  | nil => intro t; simp [pre, post]
  | cons f c ih =>
      intro t
      rw [plug_cons, ih]
      simp [pre, post, marksOf, Frame.fill]

theorem pre_eq : ∀ {d : ℕ} (c : Ctx α d D), c.pre = c.kept ++ c.edge := by
  intro d c
  induction c with
  | nil => rfl
  | cons f c ih =>
      rcases hl : f.left with _ | ⟨k, ks⟩
      · simp [pre, kept, edge, hl, marksOf, ih]
      · simp [pre, kept, edge, hl]

theorem bounds_marksOf {cs : List (ℕ × SepTree α d)} {e : α}
    (h : e ∈ cs.flatMap fun k => k.2.items) : first e ∈ marksOf cs ∧ stop e ∈ marksOf cs := by
  obtain ⟨k, hk, he⟩ := List.mem_flatMap.mp h
  exact ⟨List.mem_flatMap.mpr ⟨k, hk, List.mem_cons_of_mem _ (SepTree.first_mem_marks he)⟩,
    List.mem_flatMap.mpr ⟨k, hk, List.mem_cons_of_mem _ (SepTree.stop_mem_marks he)⟩⟩

/-- The entries before the hole lie before the whole edge. -/
theorem bounds_itemsLeft : ∀ {d : ℕ} {c : Ctx α d D} {e : α}, e ∈ c.itemsLeft →
    first e ∈ c.kept ∧ stop e ∈ c.kept := by
  intro d c
  induction c with
  | nil => intro e he; cases he
  | cons f c ih =>
      intro e he
      rw [itemsLeft, List.mem_append] at he
      rw [kept]
      rcases hl : f.left with _ | ⟨k, ks⟩
      · rw [hl] at he
        exact ih (he.resolve_right (by simp))
      · rw [← hl]
        rw [if_neg (by simp [hl])]
        rcases he with he | he
        · obtain ⟨h₁, h₂⟩ := ih he
          rw [pre_eq]
          simp [h₁, h₂]
        · obtain ⟨h₁, h₂⟩ := bounds_marksOf he
          simp [h₁, h₂]

theorem bounds_itemsRight : ∀ {d : ℕ} {c : Ctx α d D} {e : α}, e ∈ c.itemsRight →
    first e ∈ c.post ∧ stop e ∈ c.post := by
  intro d c
  induction c with
  | nil => intro e he; cases he
  | cons f c ih =>
      intro e he
      rw [itemsRight, List.mem_append] at he
      rw [post]
      rcases he with he | he
      · obtain ⟨h₁, h₂⟩ := bounds_marksOf he
        simp [h₁, h₂]
      · obtain ⟨h₁, h₂⟩ := ih he
        simp [h₁, h₂]

/-! ## The key `v` belongs in the hole -/

/-- The hole is where `v` belongs: not before the edge, and before all that
follows. -/
structure Admits (c : Ctx α d D) (v : ℕ) : Prop where
  anchor_le : ∀ k, c.anchor = some k → k ≤ v
  lt_post : ∀ m ∈ c.post, v < m

/-- What a search by keys establishes level by level. -/
def Chosen (v : ℕ) : {d : ℕ} → Ctx α d D → Prop
  | _, nil => True
  | _, cons f c => (f.left = [] ∨ f.key ≤ v) ∧ (∀ k ∈ f.right.head?, v < k.1) ∧ c.Chosen v

theorem Chosen.admits : ∀ {d : ℕ} {c : Ctx α d D} {v : ℕ}, c.Chosen v →
    c.post.Pairwise (· ≤ ·) → c.Admits v := by
  intro d c
  induction c with
  | nil => intro v _ _; exact ⟨by simp [anchor], by simp [post]⟩
  | cons f c ih =>
      rintro v ⟨hl, hr, hc⟩ hpost
      rw [post, List.pairwise_append] at hpost
      obtain ⟨hright, hup, hbetween⟩ := hpost
      obtain ⟨hanchor, hlt⟩ := ih hc hup
      constructor
      · intro k hk
        rw [anchor] at hk
        rcases hl with hl | hl
        · exact hanchor k (by simpa [hl] using hk)
        · split at hk
          · exact hanchor k hk
          · obtain rfl := Option.some.inj hk; exact hl
      · intro m hm
        rw [post, List.mem_append] at hm
        rcases hm with hm | hm
        · rcases hrt : f.right with _ | ⟨k, ks⟩
          · rw [hrt] at hm; cases hm
          · have hk : v < k.1 := hr k (by simp [hrt])
            rw [hrt, marksOf, List.flatMap_cons, List.cons_append] at hm hright
            rcases List.mem_cons.mp hm with rfl | hm
            · exact hk
            · exact Nat.lt_of_lt_of_le hk ((List.pairwise_cons.mp hright).1 m hm)
        · exact hlt m hm

theorem Admits.kept_le : ∀ {d : ℕ} {c : Ctx α d D} {v : ℕ}, c.Admits v →
    c.pre.Pairwise (· ≤ ·) → ∀ m ∈ c.kept, m ≤ v := by
  intro d c
  induction c with
  | nil => intro v _ _ m hm; cases hm
  | cons f c ih =>
      rintro v ⟨hanchor, hpost⟩ hpre m hm
      rw [pre, List.pairwise_append] at hpre
      obtain ⟨hpre, -, hle⟩ := hpre
      rw [kept] at hm
      rw [anchor] at hanchor
      rcases hl : f.left with _ | ⟨k, ks⟩
      · simp only [hl, List.isEmpty_nil, if_true] at hm hanchor
        refine ih ⟨hanchor, fun m' hm' => hpost m' ?_⟩ (List.pairwise_append.mp hpre).1 m hm
        simp [post, hm']
      · rw [if_neg (by simp [hl])] at hm
        have hkey := hanchor f.key (by simp [hl])
        exact Nat.le_trans (hle m hm f.key (by simp)) hkey

/-- Another tree in the hole. -/
theorem sorted_plug {c : Ctx α d D} {t u : SepTree α d}
    (h : (c.plug t).marks.Pairwise (· ≤ ·)) (hu : u.marks.Pairwise (· ≤ ·))
    (hlo : ∀ m ∈ c.pre, ∀ m' ∈ u.marks, m ≤ m') (hhi : ∀ m ∈ u.marks, ∀ m' ∈ c.post, m ≤ m') :
    (c.plug u).marks.Pairwise (· ≤ ·) := by
  rw [marks_plug, List.append_assoc, List.pairwise_append] at h ⊢
  obtain ⟨hpre, hrest, hpp⟩ := h
  rw [List.pairwise_append] at hrest
  refine ⟨hpre, List.pairwise_append.mpr ⟨hu, hrest.2.1, hhi⟩, fun m hm m' hm' => ?_⟩
  rcases List.mem_append.mp hm' with hm' | hm'
  · exact hlo m hm m' hm'
  · exact hpp m hm m' (List.mem_append_right _ hm')

end Ranged

/-! ## Renaming the left edge -/

/-- The context with `v` for all keys of the left edge the hole is on. -/
def rekey (v : ℕ) : {d : ℕ} → Ctx α d D → Ctx α d D
  | _, nil => nil
  | _, cons f c => cons (f.withKey v) (if f.left.isEmpty then c.rekey v else c)

/-- Renaming under a condition. -/
def rekeyIf (b : Bool) (v : ℕ) (c : Ctx α d D) : Ctx α d D := if b then c.rekey v else c

section Rekey

variable {v : ℕ}

@[simp] theorem itemsLeft_rekey : ∀ {d : ℕ} (c : Ctx α d D),
    (c.rekey v).itemsLeft = c.itemsLeft := by
  intro d c
  induction c with
  | nil => rfl
  | cons f c ih => rw [rekey]; split <;> simp [itemsLeft, ih]

@[simp] theorem itemsRight_rekey : ∀ {d : ℕ} (c : Ctx α d D),
    (c.rekey v).itemsRight = c.itemsRight := by
  intro d c
  induction c with
  | nil => rfl
  | cons f c ih => rw [rekey]; split <;> simp [itemsRight, ih]

@[simp] theorem addrs_rekey : ∀ {d : ℕ} (c : Ctx α d D), (c.rekey v).addrs = c.addrs := by
  intro d c
  induction c with
  | nil => rfl
  | cons f c ih => rw [rekey]; split <;> simp [addrs, ih, Frame.siblings]

@[simp] theorem rootAddr_rekey : ∀ {d : ℕ} (c : Ctx α d D) (a : ℕ),
    (c.rekey v).rootAddr a = c.rootAddr a := by
  intro d c
  induction c with
  | nil => intro a; rfl
  | cons f c ih => intro a; rw [rekey]; split <;> simp [rootAddr, ih]

/-- The hole stays where `v` belongs once the keys above it are `v`. -/
theorem Chosen.rekey : ∀ {d : ℕ} {c : Ctx α d D}, c.Chosen v → (c.rekey v).Chosen v := by
  intro d c
  induction c with
  | nil => exact id
  | cons f c ih =>
      rintro ⟨-, hlt, hc⟩
      refine ⟨Or.inr (Nat.le_refl v), hlt, ?_⟩
      split
      · exact ih hc
      · exact hc

/-- And nothing else comes to belong there. -/
theorem Chosen.of_rekey {w : ℕ} : ∀ {d : ℕ} {c : Ctx α d D}, c.Chosen v → v ≤ w →
    (c.rekey v).Chosen w → c.Chosen w := by
  intro d c
  induction c with
  | nil => exact fun _ _ => id
  | cons f c ih =>
      rintro ⟨hle, -, hc⟩ hvw ⟨-, hlt, hc'⟩
      refine ⟨hle.imp id fun h => h.trans hvw, hlt, ?_⟩
      split at hc'
      · exact ih hc hvw hc'
      · exact hc'

theorem Chosen.rekeyIf (b : Bool) {c : Ctx α d D} (h : c.Chosen v) : (c.rekeyIf b v).Chosen v := by
  cases b
  · exact h
  · exact h.rekey

theorem Chosen.of_rekeyIf {w : ℕ} (b : Bool) {c : Ctx α d D} (h : c.Chosen v) (hvw : v ≤ w)
    (h' : (c.rekeyIf b v).Chosen w) : c.Chosen w := by
  cases b
  · exact h'
  · exact h.of_rekey hvw h'

section If

variable (b : Bool) (c : Ctx α d D)

@[simp] theorem itemsLeft_rekeyIf : (c.rekeyIf b v).itemsLeft = c.itemsLeft := by
  cases b <;> simp [rekeyIf]

@[simp] theorem itemsRight_rekeyIf : (c.rekeyIf b v).itemsRight = c.itemsRight := by
  cases b <;> simp [rekeyIf]

@[simp] theorem addrs_rekeyIf : (c.rekeyIf b v).addrs = c.addrs := by
  cases b <;> simp [rekeyIf]

@[simp] theorem rootAddr_rekeyIf (a : ℕ) : (c.rekeyIf b v).rootAddr a = c.rootAddr a := by
  cases b <;> simp [rekeyIf]

end If

theorem around_bushy_rekey {P : List α → Prop} :
    ∀ {d : ℕ} {c : Ctx α d D} {t u : SepTree α d}, c.Around (SepTree.BushyAt P) t →
      (c.rekey v).Around (SepTree.BushyAt P) u := by
  intro d c
  induction c with
  | nil => intro t u _; trivial
  | cons f c ih =>
      rintro t u ⟨-, hs, hc⟩
      refine ⟨by simp [Frame.fill, SepTree.BushyAt, SepTree.node], hs, ?_⟩
      split
      · exact ih hc
      · exact around_bushy _ _ hc

variable [Ranged α]

theorem pre_rekey : ∀ {d : ℕ} (c : Ctx α d D),
    (c.rekey v).pre = c.kept ++ c.edge.map fun _ => v := by
  intro d c
  induction c with
  | nil => rfl
  | cons f c ih =>
      rcases hl : f.left with _ | ⟨k, ks⟩
      · simp [rekey, pre, kept, edge, hl, marksOf, ih]
      · simp [rekey, pre, kept, edge, hl]

@[simp] theorem post_rekey : ∀ {d : ℕ} (c : Ctx α d D), (c.rekey v).post = c.post := by
  intro d c
  induction c with
  | nil => rfl
  | cons f c ih => rw [rekey]; split <;> simp [post, ih]

/-- Another tree in the hole, and its first key `v` in all keys above. -/
theorem sorted_rekey {c : Ctx α d D} {t u : SepTree α d}
    (h : (c.plug t).marks.Pairwise (· ≤ ·)) (hv : c.Admits v) (hu : u.marks.Pairwise (· ≤ ·))
    (hlo : ∀ m ∈ u.marks, v ≤ m) (hhi : ∀ m ∈ u.marks, ∀ m' ∈ c.post, m ≤ m') :
    ((c.rekey v).plug u).marks.Pairwise (· ≤ ·) := by
  rw [marks_plug, List.append_assoc, List.pairwise_append] at h
  obtain ⟨hpre, hrest, hpp⟩ := h
  have hkept := hv.kept_le hpre
  rw [pre_eq, List.pairwise_append] at hpre
  rw [List.pairwise_append] at hrest
  rw [marks_plug, pre_rekey, post_rekey, List.append_assoc, List.append_assoc]
  have hrep : (c.edge.map fun _ => v).Pairwise (· ≤ ·) := by
    rw [List.pairwise_map]
    exact List.Pairwise.imp (fun _ => Nat.le_refl v) (List.pairwise_of_forall fun _ _ => trivial)
  have hv_le : ∀ m ∈ u.marks ++ c.post, v ≤ m := by
    intro m hm
    rcases List.mem_append.mp hm with hm | hm
    · exact hlo m hm
    · exact Nat.le_of_lt (hv.lt_post m hm)
  refine List.pairwise_append.mpr ⟨hpre.1, List.pairwise_append.mpr ⟨hrep,
    List.pairwise_append.mpr ⟨hu, hrest.2.1, hhi⟩, ?_⟩, ?_⟩
  · intro m hm m' hm'
    obtain ⟨-, -, rfl⟩ := List.mem_map.mp hm
    exact hv_le m' hm'
  · intro m hm m' hm'
    rcases List.mem_append.mp hm' with hm' | hm'
    · obtain ⟨-, -, rfl⟩ := List.mem_map.mp hm'
      exact hkept m hm
    · exact Nat.le_trans (hkept m hm) (hv_le m' hm')

theorem around_exact_rekey : ∀ {d : ℕ} {c : Ctx α d D} {t u : SepTree α d},
    c.Around SepTree.ExactAt t → u.keys.head? = some v →
    (c.rekey v).Around SepTree.ExactAt u := by
  intro d c
  induction c with
  | nil => intro t u _ _; trivial
  | cons f c ih =>
      rintro t u ⟨hf, hs, hc⟩ hu
      refine ⟨?_, hs, ?_⟩
      · intro k hk
        simp only [Frame.left_withKey, Frame.right_withKey, Frame.key_withKey, List.mem_append,
          List.mem_cons] at hk
        rcases hk with hk | rfl | hk
        · exact hf k (by simp [hk])
        · exact hu
        · exact hf k (by simp [hk])
      · rcases hl : f.left with _ | ⟨k, ks⟩
        · exact ih hc (by simp [Frame.fill, hl])
        · exact around_exact _ _ (by simp [Frame.fill, hl]) hc

theorem around_ordered_rekey : ∀ {d : ℕ} {c : Ctx α d D} {t u : SepTree α d},
    c.Around SepTree.OrderedAt t → c.Admits v → (c.rekey v).Around SepTree.OrderedAt u := by
  intro d c
  induction c with
  | nil => intro t u _ _; trivial
  | cons f c ih =>
      rintro t u ⟨hf, hs, hc⟩ ⟨hanchor, hpost⟩
      rw [anchor] at hanchor
      have hright : ∀ k ∈ f.right, v < k.1 := by
        intro k hk
        refine hpost k.1 (List.mem_append_left _ (List.mem_flatMap.mpr ⟨k, hk, by simp⟩))
      have hord : ((f.left ++ (f.key, t) :: f.right).map fun k => k.1).Pairwise (· < ·) := hf
      simp only [List.map_append, List.map_cons, List.pairwise_append, List.pairwise_cons] at hord
      obtain ⟨hl, ⟨-, hr⟩, hlr⟩ := hord
      refine ⟨?_, hs, ?_⟩
      · show ((f.left ++ (v, u) :: f.right).map fun k => k.1).Pairwise (· < ·)
        simp only [List.map_append, List.map_cons, List.pairwise_append, List.pairwise_cons]
        refine ⟨hl, ⟨fun m hm => ?_, hr⟩, fun m hm m' hm' => ?_⟩
        · obtain ⟨k, hk, rfl⟩ := List.mem_map.mp hm
          exact hright k hk
        · have hkey : f.key ≤ v := hanchor f.key (by
            rcases hl' : f.left with _ | ⟨k, ks⟩
            · rw [hl'] at hm; cases hm
            · rfl)
          have hm_lt : m < f.key := hlr m hm f.key (by simp)
          rcases List.mem_cons.mp hm' with rfl | hm'
          · exact Nat.lt_of_lt_of_le hm_lt hkey
          · exact hlr m hm m' (List.mem_cons_of_mem _ hm')
      · rcases hl' : f.left with _ | ⟨k, ks⟩
        · refine ih hc ⟨by simpa [hl'] using hanchor, fun m hm => hpost m ?_⟩
          exact List.mem_append_right _ hm
        · exact around_ordered _ _ hc

end Rekey
end Ctx
end EspLwext4
