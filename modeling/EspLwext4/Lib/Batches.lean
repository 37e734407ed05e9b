import Mathlib.Data.List.Basic

/-!
# Items in batches

Items that weigh something arrive one after the other. A batch takes them until it weighs at
least the limit; the item that brings it there closes it.
-/

namespace EspLwext4

variable {α : Type}

def totalOf (weight : α → ℕ) : List α → ℕ
  | [] => 0
  | x :: xs => weight x + totalOf weight xs

@[simp] theorem totalOf_nil (weight : α → ℕ) : totalOf weight [] = 0 := rfl

@[simp] theorem totalOf_cons (weight : α → ℕ) (x : α) (xs : List α) :
    totalOf weight (x :: xs) = weight x + totalOf weight xs := rfl

@[simp] theorem totalOf_append (weight : α → ℕ) (xs ys : List α) :
    totalOf weight (xs ++ ys) = totalOf weight xs + totalOf weight ys := by
  induction xs with
  | nil => exact (Nat.zero_add _).symm
  | cons x xs ih => rw [List.cons_append, totalOf_cons, totalOf_cons, ih, Nat.add_assoc]

theorem totalOf_concat (weight : α → ℕ) (xs : List α) (x : α) :
    totalOf weight (xs ++ [x]) = totalOf weight xs + weight x := totalOf_append weight xs [x]

/-- The order of the parts does not matter. -/
theorem totalOf_reverse_flatten (weight : α → ℕ) (parts : List (List α)) :
    totalOf weight parts.reverse.flatten = totalOf weight parts.flatten := by
  induction parts with
  | nil => rfl
  | cons part parts ih => simp [ih, Nat.add_comm]

/-- The items that have arrived are those of the batches, most recent first, and the rest. -/
structure Batched (limit : ℕ) (weight : α → ℕ) (items : List α) (batches : List (List α))
    (rest : List α) : Prop where
  items : items = batches.reverse.flatten ++ rest
  full : ∀ batch ∈ batches, limit ≤ totalOf weight batch ∧ totalOf weight batch.dropLast < limit
  rest : totalOf weight rest < limit

namespace Batched

variable {limit : ℕ} {weight : α → ℕ} {items rest : List α} {batches : List (List α)} {x : α}

theorem start (h : 0 < limit) : Batched limit weight [] [] [] where
  items := rfl
  full := fun _ hb => absurd hb List.not_mem_nil
  rest := h

/-- An item that leaves the batch open. -/
theorem add (h : Batched limit weight items batches rest)
    (hx : totalOf weight rest + weight x < limit) :
    Batched limit weight (items ++ [x]) batches (rest ++ [x]) where
  items := by rw [h.items, List.append_assoc]
  full := h.full
  rest := by rwa [totalOf_concat]

/-- An item that closes it. -/
theorem close (h : Batched limit weight items batches rest)
    (hx : limit ≤ totalOf weight rest + weight x) :
    Batched limit weight (items ++ [x]) ((rest ++ [x]) :: batches) [] where
  items := by
    rw [h.items, List.reverse_cons, List.flatten_append, List.flatten_singleton, List.append_nil,
      List.append_assoc]
  full := by
    intro batch hb
    rcases List.mem_cons.mp hb with rfl | hb
    · rw [totalOf_concat, List.dropLast_concat]
      exact ⟨hx, h.rest⟩
    · exact h.full batch hb
  rest := by
    have hpos : 0 < limit := Nat.zero_lt_of_lt h.rest
    exact hpos

/-- Up to the last batch closed, all but the rest. -/
theorem totalOf_batches (h : Batched limit weight items batches rest) (f : α → ℕ) :
    totalOf f batches.flatten + totalOf f rest = totalOf f items := by
  rw [h.items, totalOf_append, totalOf_reverse_flatten]

end Batched

end EspLwext4
