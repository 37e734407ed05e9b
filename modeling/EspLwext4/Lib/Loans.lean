import Mathlib.Algebra.Order.Group.Multiset

/-!
# Things on loan

A log of loans, latest first. What is on loan is what was lent and has not come back;
the log is `Orderly n` when nothing comes back that is not on loan and never more than
`n` things are on loan at once. An orderly log that ends with nothing on loan has every
loan come back exactly once.
-/

namespace EspLwext4

inductive Loan (β : Type) where
  | lend (b : β)
  | back (b : β)
deriving DecidableEq

namespace Loans

variable {β : Type} [DecidableEq β] {n : ℕ} {b : β} {ls ls' : List (Loan β)}

def onLoan : List (Loan β) → Multiset β
  | [] => 0
  | .lend b :: ls => b ::ₘ onLoan ls
  | .back b :: ls => (onLoan ls).erase b

def Orderly (n : ℕ) : List (Loan β) → Prop
  | [] => True
  | .lend _ :: ls => (onLoan ls).card < n ∧ Orderly n ls
  | .back b :: ls => b ∈ onLoan ls ∧ Orderly n ls

theorem onLoan_back {own : Multiset β} (h : onLoan ls = b ::ₘ own) :
    onLoan (.back b :: ls) = own := by
  rw [onLoan, h, Multiset.erase_cons_head]

/-- How often something was lent and came back. -/
theorem Orderly.count (h : Orderly n ls) (b : β) :
    ls.count (.lend b) = ls.count (.back b) + (onLoan ls).count b := by
  induction ls with
  | nil => rfl
  | cons l ls ih =>
      rcases l with c | c
      · obtain ⟨-, hls⟩ := h
        rw [onLoan, List.count_cons, List.count_cons, Multiset.count_cons, ih hls]
        by_cases hc : c = b
        · subst hc
          simp
          omega
        · simp [hc, Ne.symm hc]
      · obtain ⟨hmem, hls⟩ := h
        rw [onLoan, List.count_cons, List.count_cons, ih hls]
        by_cases hc : c = b
        · subst hc
          have hpos := Multiset.count_pos.mpr hmem
          rw [Multiset.count_erase_self]
          simp
          omega
        · rw [Multiset.count_erase_of_ne (Ne.symm hc)]
          simp [hc]

end Loans

end EspLwext4
