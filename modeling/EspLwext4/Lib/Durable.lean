import EspLwext4.Lib.Machine
import Mathlib.Data.Set.Basic

/-!
# Stores that may forget

A store has the values it answers with now and the values it would come back with after a loss
of power. Whatever is done to it brings values of the second kind up to date in any order; a
flush brings all of them up to date. What was written and then flushed is kept by every run
that does not write it again.
-/

namespace EspLwext4

variable {κ ν : Type}

structure Store (κ ν : Type) where
  now : κ → ν
  kept : κ → ν

namespace Store

/-- Outside `K` nothing is written; what is kept may be brought up to date. -/
def Outside (K : Set κ) (s s' : Store κ ν) : Prop :=
  ∀ k ∉ K, s'.now k = s.now k ∧ (s'.kept k = s.kept k ∨ s'.kept k = s.now k)

/-- What can be seen happen to a store. -/
inductive Event (κ ν : Type) where
  | looked
  /-- the keys have the values `f` gives them -/
  | wrote (K : Set κ) (f : κ → ν)
  /-- a write that failed: the keys may have any value -/
  | tried (K : Set κ)
  | flushed

def Event.touched : Event κ ν → Set κ
  | .wrote K _ | .tried K => K
  | _ => ∅

def Event.Done (s : Store κ ν) : Event κ ν → Prop
  | .wrote K f => ∀ k ∈ K, s.now k = f k
  | .flushed => ∀ k, s.kept k = s.now k
  | _ => True

def Step (s : Store κ ν) (e : Event κ ν) (s' : Store κ ν) : Prop :=
  s.Outside e.touched s' ∧ e.Done s'

section Lemmas

variable {s s₁ s' : Store κ ν} {K K' : Set κ} {k : κ} {e : Event κ ν} {es es' : List (Event κ ν)}

theorem Outside.refl (K : Set κ) (s : Store κ ν) : s.Outside K s :=
  fun _ _ => ⟨rfl, .inl rfl⟩

theorem Outside.trans (h : s.Outside K s₁) (h' : s₁.Outside K s') : s.Outside K s' := by
  intro k hk
  obtain ⟨hnow, hkept⟩ := h k hk
  obtain ⟨hnow', hkept'⟩ := h' k hk
  refine ⟨hnow'.trans hnow, ?_⟩
  rcases hkept' with hkept' | hkept'
  · rw [hkept']
    exact hkept
  · exact .inr (hkept'.trans hnow)

theorem Outside.mono (h : s.Outside K s') (hK : K ⊆ K') : s.Outside K' s' :=
  fun k hk => h k fun hin => hk (hK hin)

/-- What no event of a run writes stays, and stays kept if it is. -/
theorem run_outside (h : Machine.Run Step s es s') (hout : ∀ e ∈ es, k ∉ e.touched) :
    s'.now k = s.now k ∧ (s.kept k = s.now k → s'.kept k = s'.now k) := by
  induction h with
  | start => exact ⟨rfl, id⟩
  | next _ last ih =>
    have hall := List.forall_mem_append.mp hout
    obtain ⟨hnow, hkept⟩ := ih hall.1
    obtain ⟨hnow', hkept'⟩ := last.1 k (hall.2 _ (List.mem_singleton_self _))
    refine ⟨hnow'.trans hnow, fun hs => ?_⟩
    rcases hkept' with hkept' | hkept'
    · rw [hkept', hnow', hkept hs]
    · rw [hkept', hnow']

/-- **Read back.** What was written last is what the store has. -/
theorem now_of_wrote {f : κ → ν} (h : Machine.Run Step s (es ++ .wrote K f :: es') s') (hk : k ∈ K)
    (hout : ∀ e ∈ es', k ∉ e.touched) : s'.now k = f k := by
  rw [← List.singleton_append, ← List.append_assoc] at h
  obtain ⟨s₂, hfirst, hrest⟩ := h.split
  obtain ⟨s₁, -, hwrote⟩ := hfirst.split
  rw [(run_outside hrest hout).1]
  exact hwrote.last_of_single.2 k hk

/-- **Kept.** What no event after a flush writes survives a loss of power. -/
theorem kept_of_flushed (h : Machine.Run Step s (es ++ .flushed :: es') s')
    (hout : ∀ e ∈ es', k ∉ e.touched) : s'.kept k = s'.now k := by
  rw [← List.singleton_append, ← List.append_assoc] at h
  obtain ⟨s₂, hfirst, hrest⟩ := h.split
  obtain ⟨s₁, -, hflushed⟩ := hfirst.split
  exact (run_outside hrest hout).2 (hflushed.last_of_single.2 k)

end Lemmas

end Store

end EspLwext4
