import EspLwext4.Lib.Prog

/-!
# Programs on a part of the state, and runs of operations

A program that reads and writes only one part of a larger state is written for
that part and placed in the larger state with `zoom`: what it does not see, it
cannot change. Programs that cannot fault have an `answer` and a `final` state,
and a machine whose operations are such programs runs through a list of them.
-/

namespace EspLwext4

/-- A part `σ` of a larger state `τ`. -/
structure Lens (τ σ : Type) where
  get : τ → σ
  set : σ → τ → τ

namespace Prog

variable {φ ε σ τ α : Type}

/-- Run a program on a part of the state. -/
def zoom (l : Lens τ σ) (m : Prog φ ε σ α) : Prog φ ε τ α := fun t =>
  match m (l.get t) with
  | .ok a s => .ok a (l.set s t)
  | .err e s => .err e (l.set s t)
  | .fault x => .fault x

@[simp] theorem wp_zoom {Q : α → τ → Prop} {E : ε → τ → Prop} {t : τ} (l : Lens τ σ)
    (m : Prog φ ε σ α) :
    wp (zoom l m) Q E t ↔
      wp m (fun a s => Q a (l.set s t)) (fun e s => E e (l.set s t)) (l.get t) := by
  unfold wp zoom
  cases m (l.get t) <;> exact Iff.rfl

theorem zoom_of_ok {l : Lens τ σ} {m : Prog φ ε σ α} {t : τ} {a : α} {s : σ}
    (h : m (l.get t) = .ok a s) : zoom l m t = .ok a (l.set s t) := by
  unfold zoom
  rw [h]

theorem zoom_of_err {l : Lens τ σ} {m : Prog φ ε σ α} {t : τ} {e : ε} {s : σ}
    (h : m (l.get t) = .err e s) : zoom l m t = .err e (l.set s t) := by
  unfold zoom
  rw [h]

/-- Run a program on a state that has local variables besides `σ`. -/
def within (enter : σ → τ) (leave : τ → σ) (m : Prog φ ε τ α) : Prog φ ε σ α := fun s =>
  match m (enter s) with
  | .ok a t => .ok a (leave t)
  | .err e t => .err e (leave t)
  | .fault x => .fault x

@[simp] theorem wp_within {Q : α → σ → Prop} {E : ε → σ → Prop} {s : σ} (enter : σ → τ)
    (leave : τ → σ) (m : Prog φ ε τ α) :
    wp (within enter leave m) Q E s ↔
      wp m (fun a t => Q a (leave t)) (fun e t => E e (leave t)) (enter s) := by
  unfold wp within
  cases m (enter s) <;> exact Iff.rfl

/-- Translate the error codes of a program. -/
def mapErr {ε' : Type} (f : ε → ε') (m : Prog φ ε σ α) : Prog φ ε' σ α := fun s =>
  match m s with
  | .ok a s' => .ok a s'
  | .err e s' => .err (f e) s'
  | .fault x => .fault x

@[simp] theorem wp_mapErr {ε' : Type} {Q : α → σ → Prop} {E : ε' → σ → Prop} {s : σ}
    (f : ε → ε') (m : Prog φ ε σ α) :
    wp (mapErr f m) Q E s ↔ wp m Q (fun e s' => E (f e) s') s := by
  unfold wp mapErr
  cases m s <;> exact Iff.rfl

/-- `return r;` for a result held in a variable. -/
def ofExcept : Except ε α → Prog φ ε σ α
  | .ok a => pure a
  | .error e => raise e

@[simp] theorem wp_ofExcept {Q : α → σ → Prop} {E : ε → σ → Prop} {s : σ} (r : Except ε α) :
    wp (ofExcept r : Prog φ ε σ α) Q E s ↔
      (∀ a, r = .ok a → Q a s) ∧ ∀ e, r = .error e → E e s := by
  cases r with
  | ok a => simp [ofExcept]
  | error e => simp [ofExcept]

/-- `if (r == EOK) r = r'; return r;` -/
def firstError (r : Except ε α) (r' : Except ε Unit) : Prog φ ε σ α := do
  let a ← ofExcept r
  ofExcept r'
  return a

/-! ## Programs that cannot fault -/

/-- What a program returns. -/
def answer (m : Prog Empty ε σ α) (s : σ) : Except ε α :=
  match m s with
  | .ok a _ => .ok a
  | .err e _ => .error e

theorem answer_of_ok {m : Prog Empty ε σ α} {s s' : σ} {a : α} (h : m s = .ok a s') :
    m.answer s = .ok a := by
  unfold answer
  rw [h]

theorem answer_of_err {m : Prog Empty ε σ α} {s s' : σ} {e : ε} (h : m s = .err e s') :
    m.answer s = .error e := by
  unfold answer
  rw [h]

/-- Where a program ends. -/
def final (m : Prog Empty ε σ α) (s : σ) : σ :=
  match m s with
  | .ok _ s' => s'
  | .err _ s' => s'

theorem final_of_ok {m : Prog Empty ε σ α} {s s' : σ} {a : α} (h : m s = .ok a s') :
    m.final s = s' := by
  unfold final
  rw [h]

theorem final_of_err {m : Prog Empty ε σ α} {s s' : σ} {e : ε} (h : m s = .err e s') :
    m.final s = s' := by
  unfold final
  rw [h]

theorem final_failIf (c : Prop) [Decidable c] (e : ε) (s : σ) :
    (failIf c e : Prog Empty ε σ Unit).final s = s := by
  by_cases h : c
  · exact final_of_err (failIf_of h)
  · exact final_of_ok (failIf_of_not h)

/-- A program ends where one of its two ends is. -/
theorem endsIn_final (m : Prog Empty ε σ α) (s : σ) : EndsIn m s (m.final s) := by
  unfold EndsIn final
  rcases m s with ⟨a, s'⟩ | ⟨e, s'⟩ | x
  · exact .inl ⟨a, rfl⟩
  · exact .inr ⟨e, rfl⟩
  · exact x.elim

theorem final_zoom (l : Lens τ σ) (m : Prog Empty ε σ α) (t : τ) :
    (zoom l m).final t = l.set (m.final (l.get t)) t := by
  unfold final zoom
  rcases m (l.get t) with ⟨a, s⟩ | ⟨e, s⟩ | x
  · rfl
  · rfl
  · exact x.elim

theorem final_within (enter : σ → τ) (leave : τ → σ) (m : Prog Empty ε τ α) (s : σ) :
    (within enter leave m).final s = leave (m.final (enter s)) := by
  unfold final within
  rcases m (enter s) with ⟨a, t⟩ | ⟨e, t⟩ | x
  · rfl
  · rfl
  · exact x.elim

/-- A specification of a program that cannot fault is one of its answer and its
final state. -/
theorem wp_final {m : Prog Empty ε σ α} {Q : α → σ → Prop} {E : ε → σ → Prop} {s : σ} :
    wp m Q E s ↔ (∀ a, m.answer s = .ok a → Q a (m.final s)) ∧
      ∀ e, m.answer s = .error e → E e (m.final s) := by
  unfold wp answer final
  cases hm : m s with
  | ok a s' => simp
  | err e s' => simp
  | fault x => exact x.elim

/-- Nothing is asked of a program that cannot fault. -/
theorem wp_trivial (m : Prog Empty ε σ α) (s : σ) :
    wp m (fun _ _ => True) (fun _ _ => True) s :=
  wp_final.mpr ⟨fun _ _ => trivial, fun _ _ => trivial⟩

theorem wp_of_forall {m : Prog Empty ε σ α} {Q : α → σ → Prop} {E : ε → σ → Prop} {s : σ}
    (hQ : ∀ a s', Q a s') (hE : ∀ e s', E e s') : wp m Q E s :=
  wp_mono (wp_trivial m s) (fun a s' _ => hQ a s') fun e s' _ => hE e s'

/-- What a program establishes however it ends holds of its final state. -/
theorem final_of_wp {m : Prog Empty ε σ α} {P : σ → Prop} {s : σ}
    (h : wp m (fun _ => P) (fun _ => P) s) : P (m.final s) := by
  obtain ⟨hok, herr⟩ := wp_final.mp h
  cases hm : m.answer s with
  | ok a => exact hok a hm
  | error e => exact herr e hm

theorem wp_fails_iff {m : Prog Empty ε σ α} {P : σ → Prop} {s : σ} :
    wp m (fun _ _ => False) (fun _ => P) s ↔ (∃ e, m.answer s = .error e) ∧ P (m.final s) := by
  unfold wp answer final
  cases hm : m s with
  | ok a s' => simp
  | err e s' => simp
  | fault x => exact x.elim

theorem wp_returns_iff {m : Prog Empty ε σ α} {Q : α → σ → Prop} {s : σ} :
    wp m Q (fun _ _ => True) s ↔ ∀ a s', m s = .ok a s' → Q a s' := by
  unfold wp
  cases hm : m s with
  | ok a s' => simp
  | err e s' => simp
  | fault x => exact x.elim

theorem keeps_final {m : Prog Empty ε σ α} {R : σ → σ → Prop} {s : σ} :
    Keeps R m s ↔ R s (m.final s) := by
  constructor
  · exact fun h => final_of_wp h
  · intro h
    exact wp_final.mpr ⟨fun _ _ => h, fun _ _ => h⟩

/-- A program on a part leaves everything else as it is. -/
theorem Keeps.zoom {R : τ → τ → Prop} {l : Lens τ σ} {m : Prog Empty ε σ α} {t : τ}
    (h : ∀ s, R t (l.set s t)) : Keeps R (Prog.zoom l m) t := by
  unfold Keeps
  rw [wp_zoom]
  exact wp_of_forall (fun _ s => h s) fun _ s => h s

/-- What a program keeps of its part holds of the larger state. -/
theorem Keeps.zoom_of {R : τ → τ → Prop} {S : σ → σ → Prop} {l : Lens τ σ}
    {m : Prog φ ε σ α} {t : τ} (hm : Keeps S m (l.get t))
    (h : ∀ s, S (l.get t) s → R t (l.set s t)) : Keeps R (Prog.zoom l m) t := by
  unfold Keeps
  rw [wp_zoom]
  exact wp_mono hm (fun _ s hs => h s hs) fun _ s hs => h s hs

section Composition

variable {R : σ → σ → Prop} [StepRel R] {s : σ}

theorem Keeps.getState : Keeps R (Prog.getState : Prog φ ε σ σ) s := StepRel.refl (R := R) s

theorem Keeps.ofExcept (r : Except ε α) : Keeps R (Prog.ofExcept r : Prog φ ε σ α) s :=
  (wp_ofExcept r).mpr ⟨fun _ _ => StepRel.refl s, fun _ _ => StepRel.refl s⟩

theorem Keeps.firstError (r : Except ε α) (r' : Except ε Unit) :
    Keeps R (Prog.firstError r r' : Prog φ ε σ α) s :=
  Keeps.bind (Keeps.ofExcept r) fun _ _ => Keeps.bind (Keeps.ofExcept r') fun _ _ => Keeps.pure _

end Composition

end Prog

/-! ## Runs -/

namespace Runs

variable {S Op : Type} (exec : S → Op → S)

/-- The state after a list of operations. -/
def run (s : S) (ops : List Op) : S := ops.foldl exec s

/-- `C` holds of every operation of the run in the state it is called in. -/
def Along (C : S → Op → Prop) : S → List Op → Prop
  | _, [] => True
  | s, op :: ops => C s op ∧ Along C (exec s op) ops

variable {exec} {C C' : S → Op → Prop} {I : S → Prop} {s : S} {ops : List Op}

@[simp] theorem run_nil : run exec s [] = s := rfl

@[simp] theorem run_cons (op : Op) : run exec s (op :: ops) = run exec (exec s op) ops := rfl

theorem run_append (ops' : List Op) :
    run exec s (ops ++ ops') = run exec (run exec s ops) ops' := List.foldl_append ..

@[simp] theorem along_nil : Along exec C s [] ↔ True := Iff.rfl

@[simp] theorem along_cons (op : Op) :
    Along exec C s (op :: ops) ↔ C s op ∧ Along exec C (exec s op) ops := Iff.rfl

theorem along_append (ops' : List Op) :
    Along exec C s (ops ++ ops') ↔ Along exec C s ops ∧ Along exec C (run exec s ops) ops' := by
  induction ops generalizing s with
  | nil => simp
  | cons op ops ih => simp [ih, and_assoc]

theorem along_take (h : Along exec C s ops) (n : Nat) : Along exec C s (ops.take n) := by
  rw [← List.take_append_drop n ops, along_append] at h
  exact h.1

/-- An invariant that every step meeting `C` keeps holds after every run whose
steps all meet `C`. -/
theorem run_keeps (step : ∀ s op, I s → C s op → I (exec s op)) (hC : Along exec C s ops)
    (hI : I s) : I (run exec s ops) := by
  induction ops generalizing s with
  | nil => exact hI
  | cons op ops ih =>
    obtain ⟨hop, hops⟩ := hC
    exact ih hops (step s op hI hop)

/-- What an invariant gives of each step holds along the run. -/
theorem along_of_inv (step : ∀ s op, I s → C s op → I (exec s op))
    (h : ∀ s op, I s → C s op → C' s op) (hC : Along exec C s ops) (hI : I s) :
    Along exec C' s ops := by
  induction ops generalizing s with
  | nil => trivial
  | cons op ops ih =>
    obtain ⟨hop, hops⟩ := hC
    exact ⟨h s op hI hop, ih hops (step s op hI hop)⟩

theorem along_mono (h : ∀ s op, C s op → C' s op) (hC : Along exec C s ops) :
    Along exec C' s ops :=
  along_of_inv (I := fun _ => True) (fun _ _ _ _ => trivial) (fun s op _ => h s op) hC trivial

theorem along_of_forall (h : ∀ s op, C s op) : Along exec C s ops := by
  induction ops generalizing s with
  | nil => trivial
  | cons op ops ih => exact ⟨h s op, ih⟩

end Runs

end EspLwext4
