import EspLwext4.Lib.SepTree

/-!
# Lists of ranges as partial maps

A list of entries gives a key the value that the first entry covering it has for it.
In a list whose entries lie apart, one behind the other, an entry put in its place adds
its keys to the map, an entry taken out takes its keys away, and two entries that touch
may be joined into one.
-/

namespace EspLwext4

open Ranged

variable {α β : Type} [Ranged α]

/-- The entries lie one behind the other. -/
abbrev Apart (es : List α) : Prop := es.Pairwise fun x y => stop x ≤ first y

/-- What the first entry that covers `v` has for it. -/
def valueAt (value : α → ℕ → β) (es : List α) (v : ℕ) : Option β :=
  (es.find? fun e => decide (first e ≤ v ∧ v < stop e)).map fun e => value e v

/-- The entry `z` is `x` and `y`, which touch, in one. -/
structure Joins (value : α → ℕ → β) (x y z : α) : Prop where
  start : first z = first x
  touch : stop x = first y
  finish : stop z = stop y
  left : ∀ v, first x ≤ v → v < stop x → value z v = value x v
  right : ∀ v, first y ≤ v → v < stop y → value z v = value y v

/-- `es'` is `es`, or `es` with two neighbours made one by `J`. -/
def Joined (J : α → α → α → Prop) (es es' : List α) : Prop :=
  es' = es ∨ ∃ l r x y z, J x y z ∧ es = l ++ x :: y :: r ∧ es' = l ++ z :: r

/-- `es'` is `es` with `x` in its place, which `J` may have made one with a neighbour. -/
def Inserted (J : α → α → α → Prop) (x : α) (es es' : List α) : Prop :=
  ∃ l r, es = l ++ r ∧ (∀ e ∈ l, stop e ≤ first x) ∧ (∀ e ∈ r, stop x ≤ first e) ∧
    Joined J (l ++ x :: r) es'

/-- The entries `ys` are what is left of `x` when the keys from `a` on and before `b`, all of
them its own, are taken out. -/
structure Rest (value : α → ℕ → β) (x : α) (a b : ℕ) (ys : List α) : Prop where
  start : first x ≤ a
  finish : b ≤ stop x
  inside : ∀ y ∈ ys, first x ≤ first y ∧ first y < stop y ∧ stop y ≤ stop x
  apart : Apart ys
  values : ∀ v, valueAt value ys v =
    if first x ≤ v ∧ v < stop x ∧ ¬ (a ≤ v ∧ v < b) then some (value x v) else none

/-- `es'` is `es` with one entry replaced by others, as `J` says. -/
def Replaced (J : α → List α → Prop) (es es' : List α) : Prop :=
  ∃ l x r ys, es = l ++ x :: r ∧ es' = l ++ ys ++ r ∧ J x ys

section Values

variable {value : α → ℕ → β} {es es' l r : List α} {x y z : α} {v : ℕ}

theorem valueAt_append : valueAt value (l ++ r) v = (valueAt value l v).or (valueAt value r v) := by
  unfold valueAt
  rw [List.find?_append, Option.map_or]

theorem valueAt_nil : valueAt value ([] : List α) v = none := rfl

theorem valueAt_eq_none_iff :
    valueAt value es v = none ↔ ∀ e ∈ es, ¬ (first e ≤ v ∧ v < stop e) := by
  unfold valueAt
  rw [Option.map_eq_none_iff, List.find?_eq_none]
  refine forall₂_congr fun e _ => ?_
  rw [decide_eq_true_eq]

theorem valueAt_singleton :
    valueAt value [x] v = if first x ≤ v ∧ v < stop x then some (value x v) else none := by
  unfold valueAt
  by_cases h : first x ≤ v ∧ v < stop x
  · simp [h]
  · rw [if_neg h, Option.map_eq_none_iff, List.find?_singleton, if_neg (by simpa using h)]

/-- Entries that end before `v` or start behind it say nothing of it. -/
theorem valueAt_eq_none (h : ∀ e ∈ es, stop e ≤ v ∨ v < first e) : valueAt value es v = none := by
  refine valueAt_eq_none_iff.mpr fun e he hcov => ?_
  rcases h e he with hstop | hfirst
  · exact Nat.not_lt.mpr hstop hcov.2
  · exact Nat.not_le.mpr hfirst hcov.1

/-- Between two entries nothing is said. -/
theorem valueAt_between {n : ℕ} (h : Apart (l ++ r)) (hpos : ∀ e ∈ r, first e ≤ stop e)
    (hl : ∀ e ∈ l, stop e ≤ n) (hr : ∀ e ∈ r.head?, v < first e) (hn : n ≤ v) :
    valueAt value (l ++ r) v = none := by
  refine valueAt_eq_none fun e he => ?_
  rcases List.mem_append.mp he with he | he
  · exact Or.inl (Nat.le_trans (hl e he) hn)
  · cases r with
    | nil => cases he
    | cons y r =>
        have hy := hr y rfl
        rcases List.mem_cons.mp he with rfl | he
        · exact Or.inr hy
        · have hle := (List.pairwise_cons.mp (List.pairwise_append.mp h).2.1).1 e he
          have hyy := hpos y (by simp)
          exact Or.inr (Nat.lt_of_lt_of_le hy (Nat.le_trans hyy hle))

/-- Where the entries lie apart, the entry that covers a key decides its value. -/
theorem valueAt_of_mem (h : Apart es) (hx : x ∈ es) (hle : first x ≤ v) (hlt : v < stop x) :
    valueAt value es v = some (value x v) := by
  obtain ⟨l, r, rfl⟩ := List.append_of_mem hx
  obtain ⟨-, -, hcross⟩ := List.pairwise_append.mp h
  have hleft : valueAt value l v = none :=
    valueAt_eq_none fun e he => Or.inl (Nat.le_trans (hcross e he x (by simp)) hle)
  have hcons : x :: r = [x] ++ r := rfl
  rw [valueAt_append, hleft, hcons, valueAt_append, valueAt_singleton, if_pos ⟨hle, hlt⟩]
  rfl

/-- An entry in its place adds its keys. -/
theorem valueAt_insert (hl : ∀ e ∈ l, stop e ≤ first x) :
    valueAt value (l ++ x :: r) v =
      if first x ≤ v ∧ v < stop x then some (value x v) else valueAt value (l ++ r) v := by
  have hcons : x :: r = [x] ++ r := rfl
  rw [valueAt_append, hcons, valueAt_append, valueAt_append, valueAt_singleton]
  by_cases h : first x ≤ v ∧ v < stop x
  · have hleft : valueAt value l v = none :=
      valueAt_eq_none fun e he => Or.inl (Nat.le_trans (hl e he) h.1)
    rw [hleft, if_pos h, if_pos h]
    rfl
  · rw [if_neg h, if_neg h]
    rfl

/-- Two entries that touch say what they say in one. -/
theorem Joins.valueAt_eq (h : Joins value x y z) (hx : first x ≤ stop x) (hy : first y ≤ stop y) :
    valueAt value [z] v = valueAt value [x, y] v := by
  have hcons : [x, y] = [x] ++ [y] := rfl
  have htouch := h.touch
  rw [hcons, valueAt_append, valueAt_singleton, valueAt_singleton, valueAt_singleton, h.start,
    h.finish]
  by_cases hleft : first x ≤ v ∧ v < stop x
  · rw [if_pos hleft, if_pos (by omega), h.left v hleft.1 hleft.2]
    rfl
  · by_cases hright : first y ≤ v ∧ v < stop y
    · rw [if_neg hleft, if_pos hright, if_pos (by omega), h.right v hright.1 hright.2]
      rfl
    · rw [if_neg hleft, if_neg hright, if_neg (by omega)]
      rfl

end Values

section Joined

variable {value : α → ℕ → β} {J : α → α → α → Prop} {es es' l r : List α} {x : α} {v : ℕ}

omit [Ranged α] in
/-- Joining keeps what all entries have. -/
theorem Joined.forall {p : α → Prop} (h : Joined J es es')
    (hJ : ∀ x y z, J x y z → p x → p y → p z) (hp : ∀ e ∈ es, p e) : ∀ e ∈ es', p e := by
  rcases h with rfl | ⟨l, r, x, y, z, hjoin, rfl, rfl⟩
  · exact hp
  · intro e he
    rcases List.mem_append.mp he with he | he
    · exact hp e (by simp [he])
    · rcases List.mem_cons.mp he with rfl | he
      · exact hJ x y e hjoin (hp x (by simp)) (hp y (by simp))
      · exact hp e (by simp [he])

theorem Joined.valueAt_eq (h : Joined J es es') (hJ : ∀ x y z, J x y z → Joins value x y z)
    (hpos : ∀ e ∈ es, first e ≤ stop e) : valueAt value es' v = valueAt value es v := by
  rcases h with rfl | ⟨l, r, x, y, z, hjoin, rfl, rfl⟩
  · rfl
  · have hz : z :: r = [z] ++ r := rfl
    have hxy : x :: y :: r = [x, y] ++ r := rfl
    rw [valueAt_append, hz, valueAt_append, (hJ x y z hjoin).valueAt_eq (hpos x (by simp))
      (hpos y (by simp)), valueAt_append, hxy, valueAt_append]

theorem Joined.apart (h : Joined J es es') (hJ : ∀ x y z, J x y z → Joins value x y z)
    (hes : Apart es) : Apart es' := by
  rcases h with rfl | ⟨l, r, x, y, z, hjoin, rfl, rfl⟩
  · exact hes
  · have hj := hJ x y z hjoin
    simp only [Apart, List.pairwise_append, List.pairwise_cons] at hes ⊢
    obtain ⟨hl, ⟨-, hy, hr⟩, hcross⟩ := hes
    refine ⟨hl, ⟨fun e he => hj.finish ▸ hy e he, hr⟩, fun e he e' he' => ?_⟩
    rcases List.mem_cons.mp he' with rfl | he'
    · exact hj.start ▸ hcross e he x (by simp)
    · exact hcross e he e' (by simp [he'])

omit [Ranged α] in
/-- What is counted over the entries, when a join counts as its two parts. -/
theorem Joined.sum_eq {M : Type} [AddCommMonoid M] {f : α → M} (h : Joined J es es')
    (hJ : ∀ x y z, J x y z → f z = f x + f y) : (es'.map f).sum = (es.map f).sum := by
  rcases h with rfl | ⟨l, r, x, y, z, hjoin, rfl, rfl⟩
  · rfl
  · simp only [List.map_append, List.map_cons, List.sum_append, List.sum_cons, hJ x y z hjoin,
      add_assoc]

/-! ## An entry put in its place -/

theorem Inserted.forall {p : α → Prop} (h : Inserted J x es es')
    (hJ : ∀ x y z, J x y z → p x → p y → p z) (hx : p x) (hp : ∀ e ∈ es, p e) :
    ∀ e ∈ es', p e := by
  obtain ⟨l, r, rfl, -, -, hjoined⟩ := h
  refine hjoined.forall hJ fun e he => ?_
  rcases List.mem_append.mp he with he | he
  · exact hp e (List.mem_append_left _ he)
  · rcases List.mem_cons.mp he with rfl | he
    · exact hx
    · exact hp e (List.mem_append_right _ he)

theorem Inserted.valueAt_eq (h : Inserted J x es es') (hJ : ∀ x y z, J x y z → Joins value x y z)
    (hx : first x ≤ stop x) (hpos : ∀ e ∈ es, first e ≤ stop e) :
    valueAt value es' v =
      if first x ≤ v ∧ v < stop x then some (value x v) else valueAt value es v := by
  obtain ⟨l, r, rfl, hl, -, hjoined⟩ := h
  rw [hjoined.valueAt_eq hJ, valueAt_insert hl]
  intro e he
  rcases List.mem_append.mp he with he | he
  · exact hpos e (List.mem_append_left _ he)
  · rcases List.mem_cons.mp he with rfl | he
    · exact hx
    · exact hpos e (List.mem_append_right _ he)

theorem Inserted.apart (h : Inserted J x es es') (hJ : ∀ x y z, J x y z → Joins value x y z)
    (hx : first x ≤ stop x) (hes : Apart es) : Apart es' := by
  obtain ⟨l, r, rfl, hl, hr, hjoined⟩ := h
  refine hjoined.apart hJ ?_
  simp only [Apart, List.pairwise_append, List.pairwise_cons] at hes ⊢
  obtain ⟨hleft, hright, hcross⟩ := hes
  refine ⟨hleft, ⟨hr, hright⟩, fun e he e' he' => ?_⟩
  rcases List.mem_cons.mp he' with rfl | he'
  · exact hl e he
  · exact hcross e he e' he'

theorem Inserted.sum_eq {M : Type} [AddCommMonoid M] {f : α → M} (h : Inserted J x es es')
    (hJ : ∀ x y z, J x y z → f z = f x + f y) :
    (es'.map f).sum = f x + (es.map f).sum := by
  obtain ⟨l, r, rfl, -, -, hjoined⟩ := h
  rw [hjoined.sum_eq hJ]
  simp only [List.map_append, List.map_cons, List.sum_append, List.sum_cons]
  exact add_left_comm _ _ _

/-- More entries on both sides. -/
theorem Inserted.within (h : Inserted J x es es') (hl : ∀ e ∈ l, stop e ≤ first x)
    (hr : ∀ e ∈ r, stop x ≤ first e) : Inserted J x (l ++ es ++ r) (l ++ es' ++ r) := by
  obtain ⟨l₁, r₁, rfl, hl₁, hr₁, hjoined⟩ := h
  refine ⟨l ++ l₁, r₁ ++ r, by simp, ?_, ?_, ?_⟩
  · exact fun e he => (List.mem_append.mp he).elim (hl e) (hl₁ e)
  · exact fun e he => (List.mem_append.mp he).elim (hr₁ e) (hr e)
  · rcases hjoined with rfl | ⟨p, q, y, y', z, hjoin, heq, rfl⟩
    · exact Or.inl (by simp)
    · refine Or.inr ⟨l ++ p, q ++ r, y, y', z, hjoin, ?_, by simp⟩
      calc l ++ l₁ ++ x :: (r₁ ++ r) = l ++ (l₁ ++ x :: r₁) ++ r := by simp
        _ = l ++ p ++ y :: y' :: (q ++ r) := by rw [heq]; simp

end Joined

/-! ## Keys taken out of an entry -/

section Replaced

variable {value : α → ℕ → β} {J : α → List α → Prop} {es es' l r : List α} {x : α} {a b v : ℕ}

theorem Replaced.valueAt_eq (h : Replaced J es es') (hJ : ∀ x ys, J x ys → Rest value x a b ys)
    (hes : Apart es) (hpos : ∀ e ∈ es, first e < stop e) :
    valueAt value es' v = if a ≤ v ∧ v < b then none else valueAt value es v := by
  obtain ⟨l, x, r, ys, rfl, rfl, hjx⟩ := h
  have hrest := hJ x ys hjx
  have hstart := hrest.start
  have hfinish := hrest.finish
  obtain ⟨-, hright, hcross⟩ := List.pairwise_append.mp hes
  have hr := (List.pairwise_cons.mp hright).1
  rw [valueAt_insert fun e he => hcross e he x (by simp), List.append_assoc, valueAt_append,
    valueAt_append, hrest.values]
  by_cases hx : first x ≤ v ∧ v < stop x
  · have hleft : valueAt value l v = none :=
      valueAt_eq_none fun e he => Or.inl (Nat.le_trans (hcross e he x (by simp)) hx.1)
    have hback : valueAt value r v = none :=
      valueAt_eq_none fun e he => Or.inr (Nat.lt_of_lt_of_le hx.2 (hr e he))
    rw [hleft, hback, if_pos hx]
    by_cases hcut : a ≤ v ∧ v < b
    · rw [if_pos hcut, if_neg fun h => h.2.2 hcut]
      rfl
    · rw [if_neg hcut, if_pos ⟨hx.1, hx.2, hcut⟩]
      rfl
  · rw [if_neg hx, if_neg fun h => hx ⟨h.1, h.2.1⟩, if_neg (by omega), valueAt_append]
    rfl

theorem Replaced.apart (h : Replaced J es es') (hJ : ∀ x ys, J x ys → Rest value x a b ys)
    (hes : Apart es) : Apart es' := by
  obtain ⟨l, x, r, ys, rfl, rfl, hjx⟩ := h
  have hrest := hJ x ys hjx
  simp only [Apart, List.pairwise_append, List.pairwise_cons] at hes ⊢
  obtain ⟨hl, ⟨hr, hright⟩, hcross⟩ := hes
  refine ⟨⟨hl, hrest.apart, fun e he y hy => ?_⟩, hright, fun e he e' he' => ?_⟩
  · exact Nat.le_trans (hcross e he x (by simp)) (hrest.inside y hy).1
  · rcases List.mem_append.mp he with he | he
    · exact hcross e he e' (by simp [he'])
    · exact Nat.le_trans (hrest.inside e he).2.2 (hr e' he')

/-- What is left lies inside what was there. -/
theorem Replaced.inside (h : Replaced J es es') (hJ : ∀ x ys, J x ys → Rest value x a b ys) :
    ∀ y ∈ es', ∃ e ∈ es, first e ≤ first y ∧ stop y ≤ stop e := by
  obtain ⟨l, x, r, ys, rfl, rfl, hjx⟩ := h
  intro y hy
  rw [List.append_assoc, List.mem_append, List.mem_append] at hy
  rcases hy with hy | hy | hy
  · exact ⟨y, by simp [hy], Nat.le_refl _, Nat.le_refl _⟩
  · obtain ⟨hle, -, hstop⟩ := (hJ x ys hjx).inside y hy
    exact ⟨x, by simp, hle, hstop⟩
  · exact ⟨y, by simp [hy], Nat.le_refl _, Nat.le_refl _⟩

omit [Ranged α] in
theorem Replaced.forall {p : α → Prop} (h : Replaced J es es')
    (hJ : ∀ x ys, J x ys → p x → ∀ y ∈ ys, p y) (hp : ∀ e ∈ es, p e) : ∀ e ∈ es', p e := by
  obtain ⟨l, x, r, ys, rfl, rfl, hjx⟩ := h
  intro y hy
  rw [List.append_assoc, List.mem_append, List.mem_append] at hy
  rcases hy with hy | hy | hy
  · exact hp y (by simp [hy])
  · exact hJ x ys hjx (hp x (by simp)) y hy
  · exact hp y (by simp [hy])

omit [Ranged α] in
theorem Replaced.sum_eq {M : Type} [AddCommMonoid M] {f : α → M} {n : M} (h : Replaced J es es')
    (hJ : ∀ x ys, J x ys → f x = n + (ys.map f).sum) : (es.map f).sum = n + (es'.map f).sum := by
  obtain ⟨l, x, r, ys, rfl, rfl, hjx⟩ := h
  simp only [List.map_append, List.map_cons, List.sum_append, List.sum_cons, hJ x ys hjx]
  rw [add_assoc n, add_left_comm, add_assoc]

omit [Ranged α] in
/-- More entries on both sides. -/
theorem Replaced.within (h : Replaced J es es') : Replaced J (l ++ es ++ r) (l ++ es' ++ r) := by
  obtain ⟨l₁, x, r₁, ys, rfl, rfl, hjx⟩ := h
  exact ⟨l ++ l₁, x, r₁ ++ r, ys, by simp, by simp, hjx⟩

end Replaced

end EspLwext4
