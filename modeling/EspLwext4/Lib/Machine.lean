import Mathlib.Data.List.Induction

/-!
# Machines and their runs

A machine takes steps, each with a label that says what can be seen of it. A run is known by
the labels of its steps, latest last. Where every step of one machine is a step of another one
with the same label, as a relation between their states says, every run of the first is a run
of the second.
-/

namespace EspLwext4

namespace Machine

variable {σ τ ℓ ℓ' : Type}

/-- The steps labelled `ls` take `s` to `s'`. -/
inductive Run (step : σ → ℓ → σ → Prop) (s : σ) : List ℓ → σ → Prop
  | start : Run step s [] s
  | next {ls : List ℓ} {l : ℓ} {s₁ s' : σ} (run : Run step s ls s₁) (last : step s₁ l s') :
      Run step s (ls ++ [l]) s'

/-- What `R` relates keeps step: the machine `step'` follows the machine `step`. -/
def Follows (step : σ → ℓ → σ → Prop) (step' : τ → ℓ → τ → Prop) (R : σ → τ → Prop) : Prop :=
  ∀ {s s' : σ} {t : τ} {l : ℓ}, R s t → step s l s' → ∃ t', step' t l t' ∧ R s' t'

variable {step : σ → ℓ → σ → Prop} {step' : τ → ℓ → τ → Prop} {R : σ → τ → Prop}
variable {s s₁ s' : σ} {t : τ} {l : ℓ} {ls ls' : List ℓ}

namespace Run

theorem single (h : step s l s') : Run step s [l] s' := by
  show Run step s ([] ++ [l]) s'
  exact .next .start h

theorem last_of_single (h : Run step s [l] s') : step s l s' := by
  generalize hl : [l] = ls at h
  cases h with
  | start => cases hl
  | next run last =>
      have hcut : [] ++ [l] = _ ++ [_] := hl
      obtain ⟨hnil, hlast⟩ := List.append_inj' hcut rfl
      obtain rfl := List.singleton_inj.mp hlast
      subst hnil
      generalize hls : [] = ls at run
      cases run with
      | start => exact last
      | next => exact absurd hls (by simp)

theorem append (h : Run step s ls s₁) (h' : Run step s₁ ls' s') : Run step s (ls ++ ls') s' := by
  induction h' with
  | start => rwa [List.append_nil]
  | next _ last ih =>
      rw [← List.append_assoc]
      exact ih.next last

/-- A run of many steps, cut where one wants. -/
theorem split (h : Run step s (ls ++ ls') s') : ∃ s₁, Run step s ls s₁ ∧ Run step s₁ ls' s' := by
  induction ls' using List.reverseRecOn generalizing s' with
  | nil =>
      rw [List.append_nil] at h
      exact ⟨s', h, .start⟩
  | append_singleton ls' l ih =>
      rw [← List.append_assoc] at h
      generalize hall : ls ++ ls' ++ [l] = all at h
      cases h with
      | start => exact absurd hall (by simp)
      | next run last =>
          obtain ⟨rfl, hlast⟩ := List.append_inj' hall rfl
          obtain rfl := List.singleton_inj.mp hlast
          obtain ⟨s₁, hrun, hrest⟩ := ih run
          exact ⟨s₁, hrun, hrest.next last⟩

/-- What every step with a label in `C` keeps, runs of such steps keep. -/
theorem keeps {I : σ → Prop} {C : ℓ → Prop} (hstep : ∀ {s s' l}, I s → C l → step s l s' → I s')
    (h : Run step s ls s') (hC : ∀ l ∈ ls, C l) (hI : I s) : I s' := by
  induction h with
  | start => exact hI
  | next _ last ih =>
      have hall := List.forall_mem_append.mp hC
      exact hstep (ih hall.1) (hall.2 _ (List.mem_singleton_self _)) last

/-- The machine that follows has the same runs. -/
theorem followed (h : Run step s ls s') (hstep : Follows step step' R) (hR : R s t) :
    ∃ t', Run step' t ls t' ∧ R s' t' := by
  induction h with
  | start => exact ⟨t, .start, hR⟩
  | next _ last ih =>
      obtain ⟨t₁, hrun, hR₁⟩ := ih
      obtain ⟨t', hlast, hR'⟩ := hstep hR₁ last
      exact ⟨t', hrun.next hlast, hR'⟩

/-- Each step of one machine is a run of another one on what `f` reads off its state. -/
theorem unfolded {f : σ → τ} {g : ℓ → List ℓ'} {step' : τ → ℓ' → τ → Prop}
    (hstep : ∀ {s l s'}, step s l s' → Run step' (f s) (g l) (f s')) (h : Run step s ls s') :
    Run step' (f s) (ls.flatMap g) (f s') := by
  induction h with
  | start => exact .start
  | next _ last ih =>
      rw [List.flatMap_append, List.flatMap_singleton]
      exact ih.append (hstep last)

end Run

end Machine

end EspLwext4
