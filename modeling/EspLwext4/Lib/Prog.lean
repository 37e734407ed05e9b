import Mathlib.Logic.Basic

/-!
# Stateful programs with errors and faults

A program over a state `σ` ends in one of three ways: it returns a value, it
returns an error code `ε`, or it runs into a fault `φ` (undefined behaviour, or
a loop that used up its fuel). An error keeps the state the program reached,
as in C, where an early `return` undoes nothing.

`wp m Q E s` is the weakest precondition for total correctness: `m` started in
`s` does not fault, every normal result satisfies `Q` and every error `E`.
-/

namespace EspLwext4

/-- How a run of a program ends. -/
inductive Outcome (φ ε σ α : Type) where
  | ok (a : α) (s : σ)
  | err (e : ε) (s : σ)
  | fault (f : φ)

/-- A program: a function from the state to an outcome. -/
def Prog (φ ε σ α : Type) : Type := σ → Outcome φ ε σ α

namespace Prog

variable {φ ε σ α β γ : Type}

def ret (a : α) : Prog φ ε σ α := fun s => .ok a s

def andThen (m : Prog φ ε σ α) (f : α → Prog φ ε σ β) : Prog φ ε σ β := fun s =>
  match m s with
  | .ok a s' => f a s'
  | .err e s' => .err e s'
  | .fault x => .fault x

instance : Monad (Prog φ ε σ) where
  pure := ret
  bind := andThen

instance : LawfulMonad (Prog φ ε σ) :=
  LawfulMonad.mk' (Prog φ ε σ)
    (fun m => by
      funext s
      show andThen m ret s = m s
      unfold andThen ret
      cases m s <;> rfl)
    (fun _ _ => rfl)
    (fun m f g => by
      funext s
      show andThen (andThen m f) g s = andThen m (fun a => andThen (f a) g) s
      unfold andThen
      cases m s <;> rfl)

/-- Return an error code. -/
def raise (e : ε) : Prog φ ε σ α := fun s => .err e s

/-- Run into a fault. -/
def crash (x : φ) : Prog φ ε σ α := fun _ => .fault x

/-- `if (c) return e;` -/
def failIf (c : Prop) [Decidable c] (e : ε) : Prog φ ε σ Unit := if c then raise e else pure ()

/-- `if (c) { m; }` -/
def whenever (c : Prop) [Decidable c] (m : Prog φ ε σ Unit) : Prog φ ε σ Unit :=
  if c then m else pure ()

theorem whenever_congr {c d : Prop} [Decidable c] [Decidable d] {m : Prog φ ε σ Unit}
    (h : c ↔ d) : whenever c m = whenever d m := by
  unfold whenever
  by_cases hc : c
  · rw [if_pos hc, if_pos (h.mp hc)]
  · rw [if_neg hc, if_neg (mt h.mpr hc)]

/-- The current state. -/
def getState : Prog φ ε σ σ := fun s => .ok s s

/-- Change the state. -/
def update (f : σ → σ) : Prog φ ε σ Unit := fun s => .ok () (f s)

/-- Run `h` on the error code of `m`, in the state the error left. -/
def orElse (m : Prog φ ε σ α) (h : ε → Prog φ ε σ α) : Prog φ ε σ α := fun s =>
  match m s with
  | .ok a s' => .ok a s'
  | .err e s' => h e s'
  | .fault x => .fault x

/-- `if (r != EOK) { cleanup; return r; }`: whatever the cleanup reports, the
first error is the one returned. -/
def onError (m : Prog φ ε σ α) (cleanup : Prog φ ε σ Unit) : Prog φ ε σ α :=
  m.orElse fun e => (cleanup.orElse fun _ => ret ()).andThen fun _ => raise e

/-- Run `m` and hand its error, if any, to the caller as a value. -/
def attempt (m : Prog φ ε σ α) : Prog φ ε σ (Except ε α) := fun s =>
  match m s with
  | .ok a s' => .ok (.ok a) s'
  | .err e s' => .ok (.error e) s'
  | .fault x => .fault x

/-- Weakest precondition for total correctness. -/
def wp (m : Prog φ ε σ α) (Q : α → σ → Prop) (E : ε → σ → Prop) (s : σ) : Prop :=
  match m s with
  | .ok a s' => Q a s'
  | .err e s' => E e s'
  | .fault _ => False

section Rules

variable {Q : α → σ → Prop} {E : ε → σ → Prop} {s : σ}

@[simp] theorem wp_pure (a : α) : wp (pure a : Prog φ ε σ α) Q E s ↔ Q a s := Iff.rfl

@[simp] theorem wp_raise (e : ε) : wp (raise e : Prog φ ε σ α) Q E s ↔ E e s := Iff.rfl

@[simp] theorem wp_crash (x : φ) : wp (crash x : Prog φ ε σ α) Q E s ↔ False := Iff.rfl

@[simp] theorem wp_getState {Q : σ → σ → Prop} :
    wp (getState : Prog φ ε σ σ) Q E s ↔ Q s s := Iff.rfl

@[simp] theorem wp_update {Q : Unit → σ → Prop} (f : σ → σ) :
    wp (update f : Prog φ ε σ Unit) Q E s ↔ Q () (f s) := Iff.rfl

/-- Sequencing: the continuation's precondition is the postcondition. -/
@[simp] theorem wp_bind (m : Prog φ ε σ β) (f : β → Prog φ ε σ α) :
    wp (m >>= f) Q E s ↔ wp m (fun b s' => wp (f b) Q E s') E s := by
  show wp (andThen m f) Q E s ↔ _
  unfold wp andThen
  cases m s <;> exact Iff.rfl

@[simp] theorem wp_orElse (m : Prog φ ε σ α) (h : ε → Prog φ ε σ α) :
    wp (m.orElse h) Q E s ↔ wp m Q (fun e s' => wp (h e) Q E s') s := by
  unfold wp orElse
  cases m s <;> exact Iff.rfl

@[simp] theorem wp_onError (m : Prog φ ε σ α) (c : Prog φ ε σ Unit) :
    wp (m.onError c) Q E s ↔
      wp m Q (fun e s' => wp c (fun _ => E e) (fun _ => E e) s') s := by
  unfold onError
  rw [wp_orElse]
  have h (e : ε) (s' : σ) :
      wp ((c.orElse fun _ => ret ()).andThen fun _ => (raise e : Prog φ ε σ α)) Q E s' ↔
        wp c (fun _ => E e) (fun _ => E e) s' :=
    (wp_bind (c.orElse fun _ => ret ()) fun _ => raise e).trans
      ((wp_orElse c fun _ => ret ()).trans Iff.rfl)
  simp only [h]

@[simp] theorem wp_attempt {Q : Except ε α → σ → Prop} (m : Prog φ ε σ α) :
    wp (m.attempt) Q E s ↔ wp m (fun a => Q (.ok a)) (fun e => Q (.error e)) s := by
  unfold wp attempt
  cases m s <;> exact Iff.rfl

@[simp] theorem wp_ite (c : Prop) [Decidable c] (m n : Prog φ ε σ α) :
    wp (if c then m else n) Q E s ↔ (c → wp m Q E s) ∧ (¬ c → wp n Q E s) := by
  by_cases h : c <;> simp [h]

@[simp] theorem wp_failIf {Q : Unit → σ → Prop} (c : Prop) [Decidable c] (e : ε) :
    wp (failIf c e : Prog φ ε σ Unit) Q E s ↔ (c → E e s) ∧ (¬ c → Q () s) := wp_ite c _ _

@[simp] theorem wp_whenever {Q : Unit → σ → Prop} (c : Prop) [Decidable c]
    (m : Prog φ ε σ Unit) :
    wp (whenever c m) Q E s ↔ (c → wp m Q E s) ∧ (¬ c → Q () s) := wp_ite c _ _

/-- Consequence. -/
theorem wp_mono {Q' : α → σ → Prop} {E' : ε → σ → Prop} {m : Prog φ ε σ α}
    (h : wp m Q E s) (hQ : ∀ a s', Q a s' → Q' a s') (hE : ∀ e s', E e s' → E' e s') :
    wp m Q' E' s := by
  unfold wp at h ⊢
  cases hm : m s with
  | ok a s' => rw [hm] at h; exact hQ a s' h
  | err e s' => rw [hm] at h; exact hE e s' h
  | fault x => rw [hm] at h; exact h

/-- Two specifications of one program that agree where a third one says it ends. -/
theorem wp_congr {G Q₀ : α → σ → Prop} {F E₀ : ε → σ → Prop} {m : Prog φ ε σ α}
    (h : wp m Q₀ E₀ s) (hQ : ∀ a s', Q₀ a s' → (Q a s' ↔ G a s'))
    (hE : ∀ e s', E₀ e s' → (E e s' ↔ F e s')) : wp m Q E s ↔ wp m G F s := by
  unfold wp at h ⊢
  cases hm : m s with
  | ok a s' => rw [hm] at h; exact hQ a s' h
  | err e s' => rw [hm] at h; exact hE e s' h
  | fault x => exact Iff.rfl

/-- A specification may mention the run it is about. -/
theorem wp_remember {m : Prog φ ε σ α} (h : wp m Q E s) :
    wp m (fun a s' => m s = .ok a s' ∧ Q a s') (fun e s' => m s = .err e s' ∧ E e s') s := by
  unfold wp at h ⊢
  cases hm : m s with
  | ok a s' => rw [hm] at h; exact ⟨rfl, h⟩
  | err e s' => rw [hm] at h; exact ⟨rfl, h⟩
  | fault x => rw [hm] at h; exact h

/-- Conjunction of two specifications of one program. -/
theorem wp_and {Q' : α → σ → Prop} {E' : ε → σ → Prop} {m : Prog φ ε σ α}
    (h : wp m Q E s) (h' : wp m Q' E' s) :
    wp m (fun a s' => Q a s' ∧ Q' a s') (fun e s' => E e s' ∧ E' e s') s := by
  unfold wp at h h' ⊢
  cases hm : m s with
  | ok a s' => rw [hm] at h h'; exact ⟨h, h'⟩
  | err e s' => rw [hm] at h h'; exact ⟨h, h'⟩
  | fault x => rw [hm] at h; exact h

end Rules

/-- What a specification says of a run that returned. -/
theorem wp_ok {m : Prog φ ε σ α} {Q : α → σ → Prop} {E : ε → σ → Prop} {s s' : σ} {a : α}
    (h : wp m Q E s) (hm : m s = .ok a s') : Q a s' := by
  unfold wp at h; rw [hm] at h; exact h

theorem wp_err {m : Prog φ ε σ α} {Q : α → σ → Prop} {E : ε → σ → Prop} {s s' : σ} {e : ε}
    (h : wp m Q E s) (hm : m s = .err e s') : E e s' := by
  unfold wp at h; rw [hm] at h; exact h

theorem wp_iff_of_ok {m : Prog φ ε σ α} {Q : α → σ → Prop} {E : ε → σ → Prop} {s s' : σ} {a : α}
    (hm : m s = .ok a s') : wp m Q E s ↔ Q a s' := by
  unfold wp; rw [hm]

theorem wp_iff_of_err {m : Prog φ ε σ α} {Q : α → σ → Prop} {E : ε → σ → Prop} {s s' : σ} {e : ε}
    (hm : m s = .err e s') : wp m Q E s ↔ E e s' := by
  unfold wp; rw [hm]

/-- Two runs that end the same way have the same specifications. -/
theorem wp_iff_of_eq {m m' : Prog φ ε σ α} {Q : α → σ → Prop} {E : ε → σ → Prop} {s s' : σ}
    (h : m s = m' s') : wp m Q E s ↔ wp m' Q E s' := by
  unfold wp; rw [h]

/-- The run of a sequence, from the run of its first part. -/
theorem bind_of_ok {m : Prog φ ε σ α} {f : α → Prog φ ε σ β} {s s' : σ} {a : α}
    (h : m s = .ok a s') : (m >>= f) s = f a s' := by
  show andThen m f s = _
  unfold andThen
  rw [h]

/-- A sequence that returned, taken apart. -/
theorem ok_of_bind {m : Prog φ ε σ α} {f : α → Prog φ ε σ β} {s s' : σ} {b : β}
    (h : (m >>= f) s = .ok b s') : ∃ a s₁, m s = .ok a s₁ ∧ f a s₁ = .ok b s' := by
  change andThen m f s = _ at h
  unfold andThen at h
  rcases hm : m s with ⟨a, s₁⟩ | ⟨e, s₁⟩ | x
  · rw [hm] at h
    exact ⟨a, s₁, rfl, h⟩
  · rw [hm] at h
    cases h
  · rw [hm] at h
    cases h

theorem bind_of_err {m : Prog φ ε σ α} {f : α → Prog φ ε σ β} {s s' : σ} {e : ε}
    (h : m s = .err e s') : (m >>= f) s = .err e s' := by
  show andThen m f s = _
  unfold andThen
  rw [h]

/-- Continuations that agree where the first part can end. -/
theorem bind_congr_at {m : Prog φ ε σ α} {f g : α → Prog φ ε σ β} {s : σ}
    (h : ∀ a s', m s = .ok a s' → f a s' = g a s') : (m >>= f) s = (m >>= g) s := by
  show andThen m f s = andThen m g s
  unfold andThen
  cases hm : m s with
  | ok a s' => exact h a s' hm
  | err e s' => rfl
  | fault x => rfl

theorem bind_congr_left {m n : Prog φ ε σ α} {f : α → Prog φ ε σ β} {s : σ} (h : m s = n s) :
    (m >>= f) s = (n >>= f) s := by
  show andThen m f s = andThen n f s
  unfold andThen
  rw [h]

theorem attempt_of_ok {m : Prog φ ε σ α} {s s' : σ} {a : α} (h : m s = .ok a s') :
    m.attempt s = .ok (.ok a) s' := by
  unfold attempt
  rw [h]

theorem attempt_of_err {m : Prog φ ε σ α} {s s' : σ} {e : ε} (h : m s = .err e s') :
    m.attempt s = .ok (.error e) s' := by
  unfold attempt
  rw [h]

theorem failIf_of_not {c : Prop} [Decidable c] {e : ε} {s : σ} (h : ¬ c) :
    (failIf c e : Prog φ ε σ Unit) s = .ok () s := by
  unfold failIf
  rw [if_neg h]
  rfl

theorem failIf_of {c : Prop} [Decidable c] {e : ε} {s : σ} (h : c) :
    (failIf c e : Prog φ ε σ Unit) s = .err e s := by
  unfold failIf
  rw [if_pos h]
  rfl

/-- `m` started in `s` returns or fails in the state `s'`. -/
def EndsIn (m : Prog φ ε σ α) (s s' : σ) : Prop :=
  (∃ a, m s = .ok a s') ∨ ∃ e, m s = .err e s'

theorem wp_endsIn {m : Prog φ ε σ α} {P : σ → Prop} {s s' : σ}
    (h : wp m (fun _ => P) (fun _ => P) s) (hm : EndsIn m s s') : P s' := by
  rcases hm with ⟨a, hm⟩ | ⟨e, hm⟩
  · exact wp_ok h hm
  · exact wp_err h hm

/-- A program that neither fails nor faults returns. -/
theorem wp_returns {m : Prog φ ε σ α} {Q : α → σ → Prop} {s : σ}
    (h : wp m Q (fun _ _ => False) s) : ∃ a s', m s = .ok a s' ∧ Q a s' := by
  unfold wp at h
  rcases hm : m s with ⟨a, s'⟩ | ⟨e, s'⟩ | x
  · rw [hm] at h
    exact ⟨a, s', rfl, h⟩
  · rw [hm] at h
    exact h.elim
  · rw [hm] at h
    exact h.elim

/-- A program that only ever fails, and without changing the state. -/
theorem wp_refuses {m : Prog φ ε σ α} {s : σ}
    (h : wp m (fun _ _ => False) (fun _ s' => s' = s) s) : ∃ e, m s = .err e s := by
  unfold wp at h
  rcases hm : m s with ⟨a, s'⟩ | ⟨e, s'⟩ | x
  · rw [hm] at h
    exact h.elim
  · rw [hm] at h
    rw [show s' = s from h]
    exact ⟨e, rfl⟩
  · rw [hm] at h
    exact h.elim

theorem wp_ne_fault {m : Prog φ ε σ α} {Q : α → σ → Prop} {E : ε → σ → Prop} {s : σ} {x : φ}
    (h : wp m Q E s) : m s ≠ .fault x := by
  intro hm
  unfold wp at h; rw [hm] at h; exact h

/-! ## Runs that return

`Triple P m Q R` is partial correctness: where `P` holds `m` returns with `Q` or fails
with `R`, unless it faults. -/

/-- `wp` without the promise that there is no fault. -/
def wlp (m : Prog φ ε σ α) (Q : α → σ → Prop) (E : ε → σ → Prop) (s : σ) : Prop :=
  match m s with
  | .ok a s' => Q a s'
  | .err e s' => E e s'
  | .fault _ => True

def Triple (P : σ → Prop) (m : Prog φ ε σ α) (Q : α → σ → Prop) (R : σ → Prop) : Prop :=
  ∀ s, P s → wlp m Q (fun _ => R) s

theorem wlp_mono {m : Prog φ ε σ α} {Q Q' : α → σ → Prop} {E E' : ε → σ → Prop} {s : σ}
    (h : wlp m Q E s) (hQ : ∀ a s', Q a s' → Q' a s') (hE : ∀ e s', E e s' → E' e s') :
    wlp m Q' E' s := by
  unfold wlp at h ⊢
  cases hm : m s with
  | ok a s' => rw [hm] at h; exact hQ a s' h
  | err e s' => rw [hm] at h; exact hE e s' h
  | fault x => exact trivial

/-- A run without a fault. -/
theorem wp_of_wlp {m : Prog φ ε σ α} {Q Q' : α → σ → Prop} {E E' : ε → σ → Prop} {s : σ}
    (h : wlp m Q E s) (hm : wp m Q' E' s) : wp m Q E s := by
  unfold wlp at h
  unfold wp at hm ⊢
  cases hs : m s with
  | ok a s' => rwa [hs] at h
  | err e s' => rwa [hs] at h
  | fault x => rw [hs] at hm; exact hm.elim

namespace Triple

variable {P : σ → Prop} {Q : α → σ → Prop} {R S : σ → Prop} {m : Prog φ ε σ α}

theorem pure {a : α} : Triple (fun s => Q a s) (Pure.pure a : Prog φ ε σ α) Q R := fun _ h => h

theorem raise {e : ε} : Triple R (Prog.raise e : Prog φ ε σ α) Q R := fun _ h => h

theorem crash {x : φ} : Triple P (Prog.crash x : Prog φ ε σ α) Q R := fun _ _ => trivial

theorem update {f : σ → σ} (h : ∀ s, P s → S (f s)) :
    Triple P (Prog.update f : Prog φ ε σ Unit) (fun _ => S) R := h

theorem getState (h : ∀ s, P s → S s) :
    Triple P (Prog.getState : Prog φ ε σ σ) (fun _ => S) R := h

theorem bind {f : α → Prog φ ε σ β} {T : β → σ → Prop} (h : Triple P m Q R)
    (h' : ∀ a, Triple (Q a) (f a) T R) : Triple P (m >>= f) T R := by
  intro s hs
  have hm := h s hs
  unfold wlp at hm
  show wlp (andThen m f) T (fun _ => R) s
  unfold wlp andThen
  cases hms : m s with
  | ok a s' => rw [hms] at hm; exact h' a s' hm
  | err e s' => rw [hms] at hm; exact hm
  | fault x => exact trivial

theorem orElse {h : ε → Prog φ ε σ α} (hm : Triple P m Q S) (hh : ∀ e, Triple S (h e) Q R) :
    Triple P (m.orElse h) Q R := by
  intro s hs
  have hwlp := hm s hs
  unfold wlp at hwlp
  unfold wlp Prog.orElse
  cases hms : m s with
  | ok a s' => rw [hms] at hwlp; exact hwlp
  | err e s' => rw [hms] at hwlp; exact hh e s' hwlp
  | fault x => exact trivial

theorem onError {c : Prog φ ε σ Unit} (hm : Triple P m Q S) (hc : Triple S c (fun _ => R) R) :
    Triple P (m.onError c) Q R :=
  hm.orElse fun _ => Triple.bind (m := c.orElse fun _ => ret ()) (hc.orElse fun _ _ h => h)
    fun _ => Triple.raise

theorem attempt (h : Triple P m (fun _ => S) S) : Triple P m.attempt (fun _ => S) R := by
  intro s hs
  have hm := h s hs
  unfold wlp at hm
  unfold wlp Prog.attempt
  cases hms : m s with
  | ok a s' => rw [hms] at hm; exact hm
  | err e s' => rw [hms] at hm; exact hm
  | fault x => exact trivial

theorem ite {c : Prop} [Decidable c] {n : Prog φ ε σ α} (h : c → Triple P m Q R)
    (h' : ¬ c → Triple P n Q R) : Triple P (if c then m else n) Q R := by
  by_cases hc : c
  · rw [if_pos hc]; exact h hc
  · rw [if_neg hc]; exact h' hc

end Triple

/-! ## What a run returns -/

/-- Every value `m` returns when started in `s` satisfies `Q`, in the state it returns in. -/
def OnReturn (m : Prog φ ε σ α) (s : σ) (Q : α → σ → Prop) : Prop :=
  ∀ a s', m s = .ok a s' → Q a s'

namespace OnReturn

variable {m : Prog φ ε σ α} {P Q : α → σ → Prop} {s : σ}

theorem of_wp {E : ε → σ → Prop} (h : wp m Q E s) : OnReturn m s Q := fun _ _ => wp_ok h

theorem of_triple {I R : σ → Prop} (h : Triple I m Q R) (hs : I s) : OnReturn m s Q := by
  intro a s' hm
  have hwlp := h s hs
  unfold wlp at hwlp
  rw [hm] at hwlp
  exact hwlp

theorem mono (h : OnReturn m s P) (hQ : ∀ a s', P a s' → Q a s') : OnReturn m s Q :=
  fun a s' hm => hQ a s' (h a s' hm)

theorem and (h : OnReturn m s P) (h' : OnReturn m s Q) :
    OnReturn m s fun a s' => P a s' ∧ Q a s' := fun a s' hm => ⟨h a s' hm, h' a s' hm⟩

theorem pure {a : α} (h : Q a s) : OnReturn (Pure.pure a : Prog φ ε σ α) s Q := by
  rintro _ _ ⟨⟩
  exact h

theorem raise (e : ε) : OnReturn (Prog.raise e : Prog φ ε σ α) s Q := fun _ _ hm => by cases hm

theorem crash (x : φ) : OnReturn (Prog.crash x : Prog φ ε σ α) s Q := fun _ _ hm => by cases hm

theorem bind {f : α → Prog φ ε σ β} {T : β → σ → Prop} (h : OnReturn m s Q)
    (h' : ∀ a s', Q a s' → OnReturn (f a) s' T) : OnReturn (m >>= f) s T := by
  intro b s₂ hm
  obtain ⟨a, s₁, h₁, h₂⟩ := ok_of_bind hm
  exact h' a s₁ (h a s₁ h₁) b s₂ h₂

theorem ite {c : Prop} [Decidable c] {n : Prog φ ε σ α} (h : c → OnReturn m s Q)
    (h' : ¬ c → OnReturn n s Q) : OnReturn (if c then m else n) s Q := by
  by_cases hc : c
  · rw [if_pos hc]; exact h hc
  · rw [if_neg hc]; exact h' hc

theorem whenever {c : Prop} [Decidable c] {n : Prog φ ε σ Unit} {T : Unit → σ → Prop}
    (h : c → OnReturn n s T) (h' : ¬ c → T () s) : OnReturn (Prog.whenever c n) s T :=
  .ite h fun hc => .pure (h' hc)

theorem failIf {c : Prop} [Decidable c] {e : ε} {T : Unit → σ → Prop} (h : ¬ c → T () s) :
    OnReturn (Prog.failIf c e : Prog φ ε σ Unit) s T := .ite (fun _ => .raise e) fun hc => .pure (h hc)

theorem orElse {k : ε → Prog φ ε σ α} (h : OnReturn m s Q) (hk : ∀ e s', OnReturn (k e) s' Q) :
    OnReturn (m.orElse k) s Q := by
  intro a s' hm
  unfold Prog.orElse at hm
  cases hms : m s with
  | ok b s₁ =>
      rw [hms] at hm
      cases hm
      exact h _ _ hms
  | err e s₁ =>
      rw [hms] at hm
      exact hk e s₁ a s' hm
  | fault x =>
      rw [hms] at hm
      cases hm

theorem attempt (h : OnReturn m s Q) :
    OnReturn m.attempt s fun r s' => ∀ a, r = .ok a → Q a s' := by
  intro r s' hm a hr
  unfold Prog.attempt at hm
  cases hms : m s with
  | ok b s₁ =>
      rw [hms] at hm
      cases hm
      cases hr
      exact h _ _ hms
  | err e s₁ =>
      rw [hms] at hm
      cases hm
      cases hr
  | fault x =>
      rw [hms] at hm
      cases hm

/-- What is cleaned up after an error does not return. -/
theorem onError {c : Prog φ ε σ Unit} (h : OnReturn m s Q) : OnReturn (m.onError c) s Q :=
  h.orElse fun e _ => OnReturn.bind (m := c.orElse fun _ => ret ()) (Q := fun _ _ => True)
    (fun _ _ _ => trivial) fun _ _ _ => .raise e

end OnReturn

/-! ## Checks

A check leaves the state alone and fails with one error code exactly when its
condition does not hold. -/

/-- `m` started in `s` is the test of `P`. -/
structure Decides (m : Prog φ ε σ Unit) (s : σ) (e : ε) (P : Prop) : Prop where
  pass : P → m s = .ok () s
  fail : ¬ P → m s = .err e s

namespace Decides

variable {m n : Prog φ ε σ Unit} {s : σ} {e : ε} {P P' : Prop}

theorem iff (h : Decides m s e P) (hP : P ↔ P') : Decides m s e P' :=
  ⟨fun hp => h.pass (hP.mpr hp), fun hp => h.fail (mt hP.mp hp)⟩

theorem wp_iff (h : Decides m s e P) {Q : Unit → σ → Prop} {E : ε → σ → Prop} :
    wp m Q E s ↔ (P → Q () s) ∧ (¬ P → E e s) := by
  unfold wp
  by_cases hp : P
  · rw [h.pass hp]; simp [hp]
  · rw [h.fail hp]; simp [hp]

theorem skip : Decides (pure () : Prog φ ε σ Unit) s e True :=
  ⟨fun _ => rfl, fun h => absurd trivial h⟩

theorem failIf (c : Prop) [Decidable c] :
    Decides (Prog.failIf c e : Prog φ ε σ Unit) s e (¬ c) := by
  unfold Prog.failIf
  refine ⟨fun h => ?_, fun h => ?_⟩
  · rw [if_neg h]; rfl
  · rw [if_pos (not_not.mp h)]; rfl

theorem whenever {c : Prop} [Decidable c] (h : c → Decides m s e P) :
    Decides (Prog.whenever c m) s e (c → P) := by
  unfold Prog.whenever
  by_cases hc : c
  · simpa [hc] using h hc
  · simpa [hc] using skip

/-- Reading a value first. -/
theorem bind {l : Prog φ ε σ α} {f : α → Prog φ ε σ Unit} {a : α} (hl : l s = .ok a s)
    (h : Decides (f a) s e P) : Decides (l >>= f) s e P := by
  have hb : (l >>= f) s = f a s := by
    show andThen l f s = _
    unfold andThen
    rw [hl]
  exact ⟨fun hp => hb.trans (h.pass hp), fun hp => hb.trans (h.fail hp)⟩

/-- `if (c) return e;` before the rest. -/
theorem raiseIf {c : Prop} [Decidable c] (h : ¬ c → Decides m s e P) :
    Decides (if c then raise e else m) s e (¬ c ∧ P) := by
  by_cases hc : c
  · rw [if_pos hc]
    exact ⟨fun hp => absurd hc hp.1, fun _ => rfl⟩
  · rw [if_neg hc]
    exact (h hc).iff (by simp [hc])

end Decides

/-! ## Relations kept along a run -/

/-- A relation between states that composes along a run. -/
class StepRel (R : σ → σ → Prop) : Prop where
  refl : ∀ s, R s s
  trans : ∀ {s s' s'' : σ}, R s s' → R s' s'' → R s s''

/-- Started in `s`, the program ends without a fault, in a state `R` leads to. -/
def Keeps (R : σ → σ → Prop) (m : Prog φ ε σ α) (s : σ) : Prop :=
  wp m (fun _ s' => R s s') (fun _ s' => R s s') s

/-- Started in `s`, the program ends without a fault. -/
abbrev Safe (m : Prog φ ε σ α) (s : σ) : Prop := Keeps (fun _ _ => True) m s

instance : StepRel (fun _ _ : σ => True) := ⟨fun _ => trivial, fun _ _ => trivial⟩

namespace Keeps

variable {R : σ → σ → Prop} {m : Prog φ ε σ α} {s : σ}

theorem ne_fault (h : Keeps R m s) (x : φ) : m s ≠ .fault x := wp_ne_fault h

theorem ok (h : Keeps R m s) {a : α} {s' : σ} (hm : m s = .ok a s') : R s s' :=
  wp_ok (Q := fun _ s' => R s s') (E := fun _ s' => R s s') h hm

theorem err (h : Keeps R m s) {e : ε} {s' : σ} (hm : m s = .err e s') : R s s' :=
  wp_err (Q := fun _ s' => R s s') (E := fun _ s' => R s s') h hm

theorem ite {c : Prop} [Decidable c] {n : Prog φ ε σ α} (h : c → Keeps R m s)
    (h' : ¬ c → Keeps R n s) : Keeps R (if c then m else n) s := (wp_ite c m n).mpr ⟨h, h'⟩

theorem mono {R' : σ → σ → Prop} (h : Keeps R m s) (hR : ∀ s', R s s' → R' s s') :
    Keeps R' m s := wp_mono h (fun _ s' => hR s') fun _ s' => hR s'

theorem attempt (hm : Keeps R m s) : Keeps R m.attempt s := by
  unfold Keeps
  rw [wp_attempt]
  exact wp_mono hm (fun _ _ h => h) fun _ _ h => h

variable [StepRel R]

/-- A step that stays in reach of where it started stays in reach of any earlier
state. -/
theorem from_earlier {s₀ : σ} (h : Keeps R m s) (hr : R s₀ s) :
    wp m (fun _ s' => R s₀ s') (fun _ s' => R s₀ s') s :=
  wp_mono h (fun _ _ h => StepRel.trans hr h) fun _ _ h => StepRel.trans hr h

theorem pure (a : α) : Keeps R (Pure.pure a : Prog φ ε σ α) s := StepRel.refl s

theorem raise (e : ε) : Keeps R (Prog.raise e : Prog φ ε σ α) s := StepRel.refl s

/-- Sequencing when the first part says something about its result. -/
theorem bind_wp {f : α → Prog φ ε σ β} {Q : α → σ → Prop}
    (h : wp m (fun a s' => R s s' ∧ Q a s') (fun _ s' => R s s') s)
    (h' : ∀ a s', Q a s' → Keeps R (f a) s') : Keeps R (m >>= f) s := by
  unfold Keeps
  rw [wp_bind]
  exact wp_mono h (fun a s' hq => (h' a s' hq.2).from_earlier hq.1) fun _ _ h => h

theorem bind {f : α → Prog φ ε σ β} (h : Keeps R m s) (h' : ∀ a s', Keeps R (f a) s') :
    Keeps R (m >>= f) s := by
  unfold Keeps
  rw [wp_bind]
  exact wp_mono h (fun a s' hr => (h' a s').from_earlier hr) fun _ _ h => h

/-- Sequencing when the second part needs to know the run of the first. -/
theorem bind_run {f : α → Prog φ ε σ β} (h : Keeps R m s)
    (h' : ∀ a s', m s = .ok a s' → Keeps R (f a) s') : Keeps R (m >>= f) s := by
  unfold Keeps
  rw [wp_bind]
  exact wp_mono (wp_remember h) (fun a s' hr => (h' a s' hr.1).from_earlier hr.2) fun _ _ h => h.2

theorem failIf (c : Prop) [Decidable c] (e : ε) :
    Keeps R (Prog.failIf c e : Prog φ ε σ Unit) s := ite (fun _ => raise e) fun _ => pure ()

theorem bind_failIf {c : Prop} [Decidable c] {e : ε} {f : Unit → Prog φ ε σ β}
    (h : ¬ c → Keeps R (f ()) s) : Keeps R (Prog.failIf c e >>= f) s := by
  unfold Keeps
  rw [wp_bind, wp_failIf]
  exact ⟨fun _ => StepRel.refl s, h⟩

theorem whenever {c : Prop} [Decidable c] {m : Prog φ ε σ Unit} (h : c → Keeps R m s) :
    Keeps R (Prog.whenever c m) s := ite h fun _ => pure ()

theorem orElse {h : ε → Prog φ ε σ α} (hm : Keeps R m s) (hh : ∀ e s', Keeps R (h e) s') :
    Keeps R (m.orElse h) s := by
  unfold Keeps
  rw [wp_orElse]
  exact wp_mono hm (fun _ _ h => h) fun e s' hr => (hh e s').from_earlier hr

theorem onError {c : Prog φ ε σ Unit} (hm : Keeps R m s) (hc : ∀ s', Keeps R c s') :
    Keeps R (m.onError c) s := by
  unfold Keeps
  rw [wp_onError]
  exact wp_mono hm (fun _ _ h => h) fun _ s' hr => (hc s').from_earlier hr

end Keeps

end Prog

end EspLwext4
