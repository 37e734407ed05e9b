import EspLwext4.Lib.Lens

/-!
# Two programs side by side

`coupled m n R E s t`: started in `s` and `t`, the programs `m` and `n` end the same
way. Both return one value and leave states related by `R`, or both fail with one error
code and leave states related by `E`.
-/

namespace EspLwext4

namespace Prog

variable {φ ε σ τ α β : Type}

def Coupled (m : Prog φ ε σ α) (n : Prog φ ε τ α) (R : α → σ → τ → Prop)
    (E : ε → σ → τ → Prop) (s : σ) (t : τ) : Prop :=
  (∃ a s' t', m s = .ok a s' ∧ n t = .ok a t' ∧ R a s' t') ∨
    ∃ e s' t', m s = .err e s' ∧ n t = .err e t' ∧ E e s' t'

namespace Coupled

variable {m : Prog φ ε σ α} {n : Prog φ ε τ α} {R R' : α → σ → τ → Prop}
  {E E' : ε → σ → τ → Prop} {s : σ} {t : τ}

/-- Only the runs matter. -/
theorem of_runs {m' : Prog φ ε σ α} {n' : Prog φ ε τ α} {s' : σ} {t' : τ} (hm : m s = m' s')
    (hn : n t = n' t') (h : Coupled m' n' R E s' t') : Coupled m n R E s t := by
  unfold Coupled at h ⊢
  rw [hm, hn]
  exact h

/-- What a specification says of the first run. -/
theorem and_wp {Q : α → σ → Prop} {F : ε → σ → Prop} (h : Coupled m n R E s t)
    (hm : wp m Q F s) :
    Coupled m n (fun a s' t' => R a s' t' ∧ Q a s') (fun e s' t' => E e s' t' ∧ F e s') s t := by
  rcases h with ⟨a, s', t', hs, hn, hr⟩ | ⟨e, s', t', hs, hn, he⟩
  · exact Or.inl ⟨a, s', t', hs, hn, hr, (wp_iff_of_ok hs).mp hm⟩
  · exact Or.inr ⟨e, s', t', hs, hn, he, (wp_iff_of_err hs).mp hm⟩

theorem pure {a : α} (h : R a s t) :
    Coupled (Pure.pure a : Prog φ ε σ α) (Pure.pure a : Prog φ ε τ α) R E s t :=
  Or.inl ⟨a, s, t, rfl, rfl, h⟩

theorem raise {e : ε} (h : E e s t) :
    Coupled (Prog.raise e : Prog φ ε σ α) (Prog.raise e : Prog φ ε τ α) R E s t :=
  Or.inr ⟨e, s, t, rfl, rfl, h⟩

theorem mono (h : Coupled m n R E s t) (hR : ∀ a s' t', R a s' t' → R' a s' t')
    (hE : ∀ e s' t', E e s' t' → E' e s' t') : Coupled m n R' E' s t := by
  rcases h with ⟨a, s', t', hm, hn, hr⟩ | ⟨e, s', t', hm, hn, he⟩
  · exact Or.inl ⟨a, s', t', hm, hn, hR a s' t' hr⟩
  · exact Or.inr ⟨e, s', t', hm, hn, hE e s' t' he⟩

theorem bind {f : α → Prog φ ε σ β} {g : α → Prog φ ε τ β} {R' : β → σ → τ → Prop}
    (h : Coupled m n R E s t) (hf : ∀ a s' t', R a s' t' → Coupled (f a) (g a) R' E s' t') :
    Coupled (m >>= f) (n >>= g) R' E s t := by
  rcases h with ⟨a, s', t', hm, hn, hr⟩ | ⟨e, s', t', hm, hn, he⟩
  · have hrest := hf a s' t' hr
    unfold Coupled
    rw [bind_of_ok hm, bind_of_ok hn]
    exact hrest
  · exact Or.inr ⟨e, s', t', bind_of_err hm, bind_of_err hn, he⟩

theorem attempt {R' : Except ε α → σ → τ → Prop}
    (h : Coupled m n (fun a => R' (.ok a)) (fun e => R' (.error e)) s t) :
    Coupled m.attempt n.attempt R' E s t := by
  rcases h with ⟨a, s', t', hm, hn, hr⟩ | ⟨e, s', t', hm, hn, he⟩
  · exact Or.inl ⟨.ok a, s', t', attempt_of_ok hm, attempt_of_ok hn, hr⟩
  · exact Or.inl ⟨.error e, s', t', attempt_of_err hm, attempt_of_err hn, he⟩

theorem ofExcept {r : Except ε α} (hR : ∀ a, r = .ok a → R a s t)
    (hE : ∀ e, r = .error e → E e s t) :
    Coupled (Prog.ofExcept r : Prog φ ε σ α) (Prog.ofExcept r : Prog φ ε τ α) R E s t := by
  cases r with
  | ok a => exact pure (hR a rfl)
  | error e => exact raise (hE e rfl)

theorem ite {c : Prop} [Decidable c] {m' : Prog φ ε σ α} {n' : Prog φ ε τ α}
    (h : c → Coupled m n R E s t) (h' : ¬ c → Coupled m' n' R E s t) :
    Coupled (if c then m else m') (if c then n else n') R E s t := by
  by_cases hc : c
  · rw [if_pos hc, if_pos hc]
    exact h hc
  · rw [if_neg hc, if_neg hc]
    exact h' hc

theorem failIf {c : Prop} [Decidable c] {e : ε} {R : Unit → σ → τ → Prop} (hE : c → E e s t)
    (hR : ¬ c → R () s t) :
    Coupled (Prog.failIf c e : Prog φ ε σ Unit) (Prog.failIf c e : Prog φ ε τ Unit) R E s t :=
  ite (fun hc => raise (hE hc)) fun hc => pure (hR hc)

theorem whenever {c : Prop} [Decidable c] {m : Prog φ ε σ Unit} {n : Prog φ ε τ Unit}
    {R : Unit → σ → τ → Prop} (h : c → Coupled m n R E s t) (h' : ¬ c → R () s t) :
    Coupled (Prog.whenever c m) (Prog.whenever c n) R E s t := ite h fun hc => pure (h' hc)

/-- Programs on a part of the state. -/
theorem zoom {ρ υ : Type} {l : Lens ρ σ} {l' : Lens υ τ} {R : α → ρ → υ → Prop}
    {E : ε → ρ → υ → Prop} {r : ρ} {u : υ}
    (h : Coupled m n (fun a s' t' => R a (l.set s' r) (l'.set t' u))
      (fun e s' t' => E e (l.set s' r) (l'.set t' u)) (l.get r) (l'.get u)) :
    Coupled (Prog.zoom l m) (Prog.zoom l' n) R E r u := by
  rcases h with ⟨a, s', t', hm, hn, hr⟩ | ⟨e, s', t', hm, hn, he⟩
  · exact Or.inl ⟨a, _, _, zoom_of_ok hm, zoom_of_ok hn, hr⟩
  · exact Or.inr ⟨e, _, _, zoom_of_err hm, zoom_of_err hn, he⟩

end Coupled

/-- Two runs that end alike are coupled. -/
theorem coupled_of_eq {m n : Prog Empty ε σ α} {R : α → σ → σ → Prop} {E : ε → σ → σ → Prop}
    {s t : σ} (h : m s = n t)
    (hm : wp m (fun a s' => R a s' s') (fun e s' => E e s' s') s) : Coupled m n R E s t := by
  cases hs : m s with
  | ok a s' => exact Or.inl ⟨a, s', s', hs, h ▸ hs, (wp_iff_of_ok hs).mp hm⟩
  | err e s' => exact Or.inr ⟨e, s', s', hs, h ▸ hs, (wp_iff_of_err hs).mp hm⟩
  | fault x => exact x.elim

/-- Coupled programs give the same answer. -/
theorem Coupled.answer_eq {m : Prog Empty ε σ α} {n : Prog Empty ε τ α} {P : σ → τ → Prop} {s : σ}
    {t : τ} (h : Coupled m n (fun _ => P) (fun _ => P) s t) :
    m.answer s = n.answer t ∧ P (m.final s) (n.final t) := by
  unfold answer final
  rcases h with ⟨a, s', t', hm, hn, hr⟩ | ⟨e, s', t', hm, hn, he⟩
  · rw [hm, hn]
    exact ⟨rfl, hr⟩
  · rw [hm, hn]
    exact ⟨rfl, he⟩

end Prog

end EspLwext4
