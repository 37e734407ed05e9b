import EspLwext4.Lib.Prog
import Mathlib.Data.List.Basic
import Mathlib.Data.List.Range

/-!
# Transfers in chunks

A request for the units from `first` to `last` that is carried out in pieces of at most `max`
units. The loop is a program of its own, generic in what one piece does; its rule carries an
invariant from piece to piece. The second half is about lists that stand for memory: a run of
elements that is read, and a run that is replaced.
-/

namespace EspLwext4

/-! ## Runs of elements -/

section Runs

variable {α : Type} {xs ys zs : List α} {o n m : ℕ}

/-- The `n` elements from position `o`. -/
def slice (xs : List α) (o n : ℕ) : List α := (xs.drop o).take n

/-- `xs` with the elements from position `o` replaced by `ys`. -/
def overwrite (xs : List α) (o : ℕ) (ys : List α) : List α :=
  xs.take o ++ ys ++ xs.drop (o + ys.length)

@[simp] theorem slice_zero : slice xs o 0 = [] := rfl

@[simp] theorem overwrite_nil : overwrite xs o [] = xs := by simp [overwrite]

theorem length_slice (h : o + n ≤ xs.length) : (slice xs o n).length = n := by
  unfold slice
  rw [List.length_take, List.length_drop]
  omega

theorem length_overwrite (h : o + ys.length ≤ xs.length) :
    (overwrite xs o ys).length = xs.length := by
  unfold overwrite
  simp only [List.length_append, List.length_take, List.length_drop]
  omega

/-- Two adjacent runs. -/
theorem slice_append : slice xs o n ++ slice xs (o + n) m = slice xs o (n + m) := by
  unfold slice
  rw [List.take_add, List.drop_drop]

/-- Replacing two adjacent runs, one after the other. -/
theorem overwrite_append (h : o ≤ xs.length) :
    overwrite (overwrite xs o ys) (o + ys.length) zs = overwrite xs o (ys ++ zs) := by
  have hlen : (xs.take o ++ ys).length = o + ys.length := by
    rw [List.length_append, List.length_take, Nat.min_eq_left h]
  have htake : (overwrite xs o ys).take (o + ys.length) = xs.take o ++ ys := by
    unfold overwrite
    rw [← hlen, List.take_left]
  have hdrop : (overwrite xs o ys).drop (o + ys.length + zs.length) =
      xs.drop (o + (ys ++ zs).length) := by
    unfold overwrite
    rw [← List.drop_drop, ← hlen, List.drop_left, hlen, List.drop_drop, List.length_append,
      Nat.add_assoc]
  unfold overwrite at htake hdrop ⊢
  rw [htake, hdrop, List.append_assoc (xs.take o) ys zs]

/-- A run put at the start is there. -/
theorem slice_overwrite_zero : slice (overwrite xs 0 ys) 0 ys.length = ys := by
  unfold slice overwrite
  rw [List.drop_zero, List.take_zero, List.nil_append, List.take_left]

/-- Outside the run nothing changes. -/
theorem getElem?_overwrite_of_outside {i : ℕ} (h : o + ys.length ≤ xs.length)
    (hi : i < o ∨ o + ys.length ≤ i) : (overwrite xs o ys)[i]? = xs[i]? := by
  have hlen : (xs.take o ++ ys).length = o + ys.length := by
    rw [List.length_append, List.length_take]
    omega
  unfold overwrite
  rcases hi with hi | hi
  · rw [List.append_assoc, List.getElem?_append_left (by rw [List.length_take]; omega),
      List.getElem?_take_of_lt hi]
  · rw [List.getElem?_append_right (by omega), hlen, List.getElem?_drop]
    congr 1
    omega

theorem getElem?_slice {i : ℕ} (hi : i < n) : (slice xs o n)[i]? = xs[o + i]? := by
  unfold slice
  rw [List.getElem?_take_of_lt hi, List.getElem?_drop]

theorem length_slice_le : (slice xs o n).length ≤ n := List.length_take_le _ _

/-- Inside the run stands what replaced it. -/
theorem getElem?_overwrite_of_inside {i : ℕ} (h : o ≤ xs.length) (hi : i < ys.length) :
    (overwrite xs o ys)[o + i]? = ys[i]? := by
  have hlen : (xs.take o).length = o := by
    rw [List.length_take, Nat.min_eq_left h]
  unfold overwrite
  rw [List.append_assoc, List.getElem?_append_right (by omega), hlen, Nat.add_sub_cancel_left,
    List.getElem?_append_left hi]

end Runs

/-! ## Cutting a request -/

/-- `pieces`, each a first unit and a number of units, are the units from `first` up to `last`
cut into runs of 1 to `max` units: each unit once and in order. -/
structure Cuts (max first last : ℕ) (pieces : List (ℕ × ℕ)) : Prop where
  le : first ≤ last
  sizes : ∀ p ∈ pieces, 0 < p.2 ∧ p.2 ≤ max
  covers : pieces.flatMap (fun p => List.range' p.1 p.2) = List.range' first (last - first)

namespace Cuts

variable {max first last n : ℕ} {pieces : List (ℕ × ℕ)}

theorem start (max first : ℕ) : Cuts max first first [] where
  le := Nat.le_refl first
  sizes := by simp
  covers := by simp

/-- One more piece behind the others. -/
theorem piece (h : Cuts max first last pieces) (h0 : 0 < n) (hn : n ≤ max) :
    Cuts max first (last + n) (pieces ++ [(last, n)]) where
  le := h.le.trans (Nat.le_add_right last n)
  sizes := by
    intro p hp
    rcases List.mem_append.mp hp with hp | hp
    · exact h.sizes p hp
    · rw [List.mem_singleton.mp hp]
      exact ⟨h0, hn⟩
  covers := by
    have hle := h.le
    rw [List.flatMap_append, h.covers, List.flatMap_singleton]
    have hlast : last = first + 1 * (last - first) := by omega
    show List.range' first (last - first) ++ List.range' last n = _
    conv => lhs; arg 2; rw [hlast]
    rw [List.range'_append]
    congr 1
    omega

/-- Every piece lies inside the request. -/
theorem inside (h : Cuts max first last pieces) {p : ℕ × ℕ} (hp : p ∈ pieces) :
    first ≤ p.1 ∧ p.1 + p.2 ≤ last := by
  have hpos := (h.sizes p hp).1
  have hle := h.le
  have mem {u : ℕ} (hu : p.1 ≤ u) (hu' : u < p.1 + p.2) : first ≤ u ∧ u < last := by
    have hin : u ∈ pieces.flatMap fun p => List.range' p.1 p.2 :=
      List.mem_flatMap.mpr ⟨p, hp, List.mem_range'_1.mpr ⟨hu, hu'⟩⟩
    rw [h.covers, List.mem_range'_1] at hin
    omega
  have hfirst := mem (Nat.le_refl _) (by omega)
  have hend := mem (u := p.1 + p.2 - 1) (by omega) (by omega)
  omega

end Cuts

/-! ## The loop -/

namespace Prog

variable {φ ε σ : Type}

/-- `while (remaining != 0)` over pieces of at most `max` units. -/
def chunked (max : ℕ) (step : ℕ → ℕ → Prog φ ε σ Unit) : ℕ → ℕ → ℕ → Prog φ ε σ Unit
  | 0, _, _ => pure ()
  | rounds + 1, remaining, unit =>
    if remaining = 0 then pure ()
    else do
      step unit (min remaining max)
      chunked max step rounds (remaining - min remaining max) (unit + min remaining max)

/-- **The rule of the loop.** What one piece preserves, the loop preserves; it ends at `last`. -/
theorem wp_chunked {max last : ℕ} {step : ℕ → ℕ → Prog φ ε σ Unit} (I : ℕ → σ → Prop)
    {E : ε → σ → Prop} (hmax : 0 < max)
    (hstep : ∀ unit n s, unit + n ≤ last → n = min (last - unit) max → 0 < n → I unit s →
      wp (step unit n) (fun _ => I (unit + n)) E s)
    {rounds unit : ℕ} {s : σ} (hle : unit ≤ last) (hr : last - unit ≤ rounds) (hI : I unit s) :
    wp (chunked max step rounds (last - unit) unit) (fun _ => I last) E s := by
  induction rounds generalizing unit s with
  | zero =>
    have hend : unit = last := by omega
    rw [hend] at hI
    exact hI
  | succ rounds ih =>
    unfold chunked
    by_cases hend : last - unit = 0
    · have heq : unit = last := by omega
      rw [if_pos hend]
      rw [heq] at hI
      exact hI
    · rw [if_neg hend, wp_bind]
      have hround := hstep unit (min (last - unit) max) s (by omega) rfl (by omega) hI
      apply wp_mono hround _ fun _ _ he => he
      intro _ s' hI'
      have hrest : last - unit - min (last - unit) max = last - (unit + min (last - unit) max) :=
        Nat.sub_sub _ _ _
      rw [hrest]
      exact ih (by omega) (by omega) hI'

/-- A loop whose rounds inside the request each are one piece is the loop over pieces. -/
theorem chunked_of_rounds {max first last : ℕ} {step : ℕ → ℕ → Prog φ ε σ Unit}
    {f : ℕ → ℕ → ℕ → Prog φ ε σ Unit} (hzero : ∀ remaining unit, f 0 remaining unit = pure ())
    (hround : ∀ rounds remaining unit, first ≤ unit → unit + min remaining max ≤ last →
      f (rounds + 1) remaining unit =
        if remaining = 0 then pure ()
        else do
          step unit (min remaining max)
          f rounds (remaining - min remaining max) (unit + min remaining max))
    {rounds remaining unit : ℕ} (hfirst : first ≤ unit) (hle : unit + remaining ≤ last) :
    f rounds remaining unit = chunked max step rounds remaining unit := by
  induction rounds generalizing remaining unit with
  | zero => exact hzero remaining unit
  | succ rounds ih =>
    have hmin := Nat.min_le_left remaining max
    rw [hround rounds remaining unit hfirst (by omega), ih (by omega) (by omega)]
    rfl

/-- A relation that every piece of the request keeps, the loop keeps. -/
theorem Keeps.chunked {max first last : ℕ} {step : ℕ → ℕ → Prog φ ε σ Unit} {R : σ → σ → Prop}
    [StepRel R] (hstep : ∀ unit n s, first ≤ unit → unit + n ≤ last → Keeps R (step unit n) s)
    {rounds remaining unit : ℕ} {s : σ} (hfirst : first ≤ unit) (hle : unit + remaining ≤ last) :
    Keeps R (chunked max step rounds remaining unit) s := by
  induction rounds generalizing remaining unit s with
  | zero => exact Keeps.pure ()
  | succ rounds ih =>
    have hmin := Nat.min_le_left remaining max
    unfold Prog.chunked
    refine Keeps.ite (fun _ => Keeps.pure ()) fun _ => ?_
    exact Keeps.bind (hstep _ _ _ hfirst (by omega)) fun _ _ => ih (by omega) (by omega)

end Prog

end EspLwext4
