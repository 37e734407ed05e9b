import EspLwext4.Lib.Machine
import Mathlib.Data.Set.Basic
import Mathlib.Logic.Function.Basic

/-!
# Tasks that share a state

Any number of tasks, each at a point of its program, work on one shared state; a step is the
step of one task. An action of a step hands resources out and takes resources back, and a
point owns resources. What the shared state says must be owned is owned by one task, and by
one only; and what a point relies on is left alone by the actions of tasks that own other
things. Both follow for all interleavings from facts about one step.
-/

namespace EspLwext4

namespace Interleaving

variable {σ π α ρ τ : Type}

/-- The shared state, and the point each task has reached. -/
structure Config (σ π τ : Type) where
  shared : σ
  point : τ → π

/-- The programs of the tasks, and what is said of them. -/
structure Protocol (σ π α ρ : Type) where
  /-- a task goes from one point to another, with an action on the shared state -/
  step : σ → π → α → π → Prop
  apply : α → σ → σ
  /-- what the task of an action comes to own -/
  gains : α → ρ → Prop
  /-- what it gives up -/
  loses : α → ρ → Prop
  /-- what a task at a point owns -/
  owns : π → ρ → Prop
  /-- what some task must own -/
  kept : σ → ρ → Prop
  /-- what a task at a point relies on -/
  relies : σ → π → Prop
  inv : σ → Prop

/-- Nothing is owned by both points. -/
def Protocol.Apart (P : Protocol σ π α ρ) (p q : π) : Prop := ∀ r, P.owns p r → ¬ P.owns q r

/-- What is known of a task that is about to take a step. -/
structure Protocol.Ready (P : Protocol σ π α ρ) (s : σ) (p : π) : Prop where
  inv : P.inv s
  relies : P.relies s p
  kept : ∀ r, P.owns p r → P.kept s r

/-- What has to be shown of one step. -/
structure Protocol.Sound (P : Protocol σ π α ρ) : Prop where
  inv : ∀ {s p a p'}, P.Ready s p → P.step s p a p' → P.inv (P.apply a s)
  relies : ∀ {s p a p'}, P.Ready s p → P.step s p a p' → P.relies (P.apply a s) p'
  others : ∀ {s p a p' q}, P.Ready s p → P.step s p a p' → P.relies s q → P.Apart p q →
    P.relies (P.apply a s) q
  gains : ∀ {s p a p' r}, P.Ready s p → P.step s p a p' → P.gains a r → ¬ P.kept s r
  loses : ∀ {s p a p' r}, P.step s p a p' → P.loses a r → P.owns p r
  owns : ∀ {s p a p' r}, P.step s p a p' →
    (P.owns p' r ↔ P.owns p r ∧ ¬ P.loses a r ∨ P.gains a r)
  kept : ∀ {s p a p' r}, P.Ready s p → P.step s p a p' →
    (P.kept (P.apply a s) r ↔ P.kept s r ∧ ¬ P.loses a r ∨ P.gains a r)

/-- A step of one of the tasks. -/
def Protocol.Moves [DecidableEq τ] (P : Protocol σ π α ρ) (c : Config σ π τ) (t : τ)
    (c' : Config σ π τ) : Prop :=
  ∃ a p', P.step c.shared (c.point t) a p' ∧
    c' = ⟨P.apply a c.shared, Function.update c.point t p'⟩

/-- What holds in every configuration that is reached. -/
structure Protocol.Holds (P : Protocol σ π α ρ) (c : Config σ π τ) : Prop where
  inv : P.inv c.shared
  relies : ∀ t, P.relies c.shared (c.point t)
  kept : ∀ r, P.kept c.shared r ↔ ∃ t, P.owns (c.point t) r
  apart : ∀ t t', t ≠ t' → P.Apart (c.point t) (c.point t')

section Lemmas

variable {P : Protocol σ π α ρ} {c c' : Config σ π τ} {t t' : τ} {r : ρ} {ts : List τ}

/-- What two tasks own at once belongs to one task. -/
theorem Protocol.Holds.owner (h : P.Holds c) (ht : P.owns (c.point t) r)
    (ht' : P.owns (c.point t') r) : t = t' := by
  by_contra hne
  exact h.apart t t' hne r ht ht'

theorem Protocol.Holds.ready (h : P.Holds c) (t : τ) : P.Ready c.shared (c.point t) where
  inv := h.inv
  relies := h.relies t
  kept r hr := (h.kept r).mpr ⟨t, hr⟩

variable [DecidableEq τ]

/-- One step keeps it. -/
theorem Protocol.Sound.step (hP : P.Sound) (h : P.Holds c) (hmoves : P.Moves c t c') :
    P.Holds c' := by
  obtain ⟨a, p', hstep, rfl⟩ := hmoves
  have hready := h.ready t
  have same : Function.update c.point t p' t = p' := Function.update_self ..
  have other {u : τ} (hu : u ≠ t) : Function.update c.point t p' u = c.point u :=
    Function.update_of_ne hu ..
  -- what the task owns now is owned by no other one
  have fresh {u : τ} {r : ρ} (hu : u ≠ t) (hr : P.owns p' r) : ¬ P.owns (c.point u) r := by
    intro hru
    rcases (hP.owns hstep).mp hr with ⟨hold, -⟩ | hgain
    · exact h.apart t u (Ne.symm hu) r hold hru
    · exact hP.gains hready hstep hgain ((h.kept r).mpr ⟨u, hru⟩)
  refine ⟨hP.inv hready hstep, fun u => ?_, fun r => ?_, fun u v huv r => ?_⟩
  · dsimp only
    by_cases hu : u = t
    · subst hu
      rw [same]
      exact hP.relies hready hstep
    · rw [other hu]
      exact hP.others hready hstep (h.relies u) (h.apart t u (Ne.symm hu))
  · dsimp only
    rw [hP.kept hready hstep, h.kept r]
    constructor
    · rintro (⟨⟨u, hu⟩, hno⟩ | hgain)
      · by_cases hut : u = t
        · subst hut
          refine ⟨u, ?_⟩
          rw [same]
          exact (hP.owns hstep).mpr (.inl ⟨hu, hno⟩)
        · exact ⟨u, (other hut).symm ▸ hu⟩
      · refine ⟨t, ?_⟩
        rw [same]
        exact (hP.owns hstep).mpr (.inr hgain)
    · rintro ⟨u, hu⟩
      by_cases hut : u = t
      · subst hut
        rw [same, hP.owns hstep] at hu
        exact hu.imp_left fun hold => ⟨⟨u, hold.1⟩, hold.2⟩
      · rw [other hut] at hu
        exact .inl ⟨⟨u, hu⟩, fun hlose => h.apart t u (Ne.symm hut) r (hP.loses hstep hlose) hu⟩
  · dsimp only
    by_cases hu : u = t
    · subst hu
      rw [same, other (Ne.symm huv)]
      exact fun hr => fresh (Ne.symm huv) hr
    · rw [other hu]
      by_cases hv : v = t
      · subst hv
        rw [same]
        exact fun hr hr' => fresh hu hr' hr
      · rw [other hv]
        exact h.apart u v huv r

/-- So does every interleaving. -/
theorem Protocol.Sound.run (hP : P.Sound) (h : P.Holds c)
    (hrun : Machine.Run P.Moves c ts c') : P.Holds c' :=
  hrun.keeps (C := fun _ => True) (fun hI _ hmoves => hP.step hI hmoves) (fun _ _ => trivial) h

end Lemmas

end Interleaving

end EspLwext4
