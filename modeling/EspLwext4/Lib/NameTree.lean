import Mathlib.Data.List.Basic
import Mathlib.Data.List.Induction

/-!
# Trees of names with hard links

Nodes are numbers and a directory holds named entries. A directory has one name; a file may
have several. A walk stays, goes up to the parent, or goes into an entry. Removing an entry
leaves every other walk as it was when nothing lies behind that entry.
-/

namespace EspLwext4

structure NameTree (ν : Type) where
  root : ℕ
  isDir : ℕ → Bool
  entries : ℕ → List (ν × ℕ)
  parent : ℕ → ℕ
  /-- a directory lies in its parent only -/
  parent_eq : ∀ d n i, (n, i) ∈ entries d → isDir i = true → parent i = d
  name_unique : ∀ d n n' i, (n, i) ∈ entries d → (n', i) ∈ entries d → isDir i = true → n = n'
  root_unnamed : ∀ d n, (n, root) ∉ entries d

/-- One component of a path. -/
inductive Move (ν : Type) where
  | here | up
  | into (n : ν)
deriving DecidableEq, Repr

namespace NameTree

variable {ν : Type} [DecidableEq ν]

def step (t : NameTree ν) (i : ℕ) (m : Move ν) : Option ℕ :=
  if t.isDir i = true then
    match m with
    | .here => some i
    | .up => some (t.parent i)
    | .into n => (t.entries i).lookup n
  else none

/-- The node a path leads to from `i`. -/
def walk (t : NameTree ν) (i : ℕ) : List (Move ν) → Option ℕ
  | [] => some i
  | m :: ms => (t.step i m).bind fun j => walk t j ms

/-- `j` lies strictly below `i`. -/
def Below (t : NameTree ν) (i j : ℕ) : Prop :=
  ∃ names, names ≠ [] ∧ t.walk i (names.map .into) = some j

/-- The tree without the entry `n` of the directory `d`. -/
def remove (t : NameTree ν) (d : ℕ) (n : ν) : NameTree ν where
  root := t.root
  isDir := t.isDir
  entries e := if e = d then (t.entries e).filter fun p => p.1 ≠ n else t.entries e
  parent := t.parent
  parent_eq e m i h hi := by
    split_ifs at h
    · exact t.parent_eq e m i (List.mem_of_mem_filter h) hi
    · exact t.parent_eq e m i h hi
  name_unique e m m' i h h' hi := by
    split_ifs at h h'
    · exact t.name_unique e m m' i (List.mem_of_mem_filter h) (List.mem_of_mem_filter h') hi
    · exact t.name_unique e m m' i h h' hi
  root_unnamed e m h := by
    split_ifs at h
    · exact t.root_unnamed e m (List.mem_of_mem_filter h)
    · exact t.root_unnamed e m h

section Lemmas

variable {t : NameTree ν} {i j k d : ℕ} {n : ν} {m : Move ν} {ms ms' : List (Move ν)}

/-! ## Walks -/

@[simp] theorem walk_nil : t.walk i [] = some i := rfl

theorem walk_cons : t.walk i (m :: ms) = (t.step i m).bind fun j => t.walk j ms := rfl

theorem walk_append : t.walk i (ms ++ ms') = (t.walk i ms).bind fun j => t.walk j ms' := by
  induction ms generalizing i with
  | nil => rfl
  | cons m ms ih =>
    rw [List.cons_append, walk_cons, walk_cons]
    cases t.step i m with
    | none => rfl
    | some j => exact ih

theorem walk_concat : t.walk i (ms ++ [m]) = (t.walk i ms).bind fun j => t.step j m := by
  rw [walk_append]
  cases t.walk i ms with
  | none => rfl
  | some j =>
    show (t.step j m).bind some = t.step j m
    exact Option.bind_fun_some _

/-- Where a walk can go on there is a directory. -/
theorem isDir_of_step (h : t.step i m = some j) : t.isDir i = true := by
  unfold step at h
  by_contra hn
  rw [if_neg hn] at h
  cases h

theorem step_file (h : t.isDir i = false) : t.step i m = none := by
  unfold step
  rw [h]
  rfl

theorem step_into (h : t.isDir i = true) : t.step i (.into n) = (t.entries i).lookup n := if_pos h

theorem mem_of_step (h : t.step i (.into n) = some j) : (n, j) ∈ t.entries i := by
  rw [step_into (isDir_of_step h)] at h
  obtain ⟨l, r, hsplit, -⟩ := List.lookup_eq_some_iff.mp h
  rw [hsplit]
  exact List.mem_append_right _ (List.mem_cons_self ..)

/-- **A directory has one path.** -/
theorem names_unique {names names' : List ν} (hi : t.isDir i = true)
    (h : t.walk t.root (names.map .into) = some i)
    (h' : t.walk t.root (names'.map .into) = some i) : names = names' := by
  induction names using List.reverseRecOn generalizing i names' with
  | nil =>
    rcases List.eq_nil_or_concat names' with rfl | ⟨ns, n, rfl⟩
    · rfl
    · rw [List.concat_eq_append, List.map_append, List.map_singleton, walk_concat] at h'
      obtain ⟨j, -, hstep⟩ := Option.bind_eq_some_iff.mp h'
      cases h
      exact absurd (mem_of_step hstep) (t.root_unnamed j n)
  | append_singleton names n ih =>
    rw [List.map_append, List.map_singleton, walk_concat] at h
    obtain ⟨j, hwalk, hstep⟩ := Option.bind_eq_some_iff.mp h
    have hmem := mem_of_step hstep
    rcases List.eq_nil_or_concat names' with rfl | ⟨names', n', rfl⟩
    · cases h'
      exact absurd hmem (t.root_unnamed j n)
    · rw [List.concat_eq_append, List.map_append, List.map_singleton, walk_concat] at h'
      obtain ⟨j', hwalk', hstep'⟩ := Option.bind_eq_some_iff.mp h'
      have hmem' := mem_of_step hstep'
      obtain rfl : j = j' := (t.parent_eq j n i hmem hi).symm.trans (t.parent_eq j' n' i hmem' hi)
      rw [List.concat_eq_append, t.name_unique j n n' i hmem hmem' hi,
        ih (isDir_of_step hstep) hwalk hwalk']

/-! ## Removing an entry -/

theorem lookup_filter_ne {l : List (ν × ℕ)} {n' : ν} (h : n' ≠ n) :
    (l.filter fun p => p.1 ≠ n).lookup n' = l.lookup n' := by
  induction l with
  | nil => rfl
  | cons p l ih =>
    by_cases hp : p.1 = n
    · have hne : n' ≠ p.1 := by
        rw [hp]
        exact h
      rw [List.filter_cons_of_neg (by simpa using hp), ih, List.lookup_cons, beq_false_of_ne hne]
    · rw [List.filter_cons_of_pos (by simpa using hp), List.lookup_cons, List.lookup_cons, ih]

/-- A step that does not use the removed entry. -/
theorem step_remove (h : i = d → m ≠ .into n) : (t.remove d n).step i m = t.step i m := by
  unfold step
  by_cases hi : t.isDir i = true
  · have hi' : (t.remove d n).isDir i = true := hi
    rw [if_pos hi, if_pos hi']
    cases m with
    | here => rfl
    | up => rfl
    | into n' =>
      show (if i = d then _ else _ : List (ν × ℕ)).lookup n' = _
      by_cases hd : i = d
      · rw [if_pos hd]
        exact lookup_filter_ne fun hn => h hd (congrArg Move.into hn)
      · rw [if_neg hd]
  · have hi' : ¬ (t.remove d n).isDir i = true := hi
    rw [if_neg hi, if_neg hi']

/-- A walk that ends elsewhere, when it could not go on behind the removed entry. -/
theorem walk_remove (hstep : t.step d (.into n) = some j) (hend : ∀ m ∈ ms, t.step j m = none)
    (hne : k ≠ j) (h : t.walk i ms = some k) : (t.remove d n).walk i ms = some k := by
  induction ms generalizing i with
  | nil => exact h
  | cons m ms ih =>
    rw [walk_cons] at h ⊢
    obtain ⟨i', hi', hrest⟩ := Option.bind_eq_some_iff.mp h
    have hkept : (t.remove d n).step i m = t.step i m := by
      refine step_remove ?_
      -- through the removed entry the walk would be at `j`, where it ends
      rintro rfl rfl
      obtain rfl : i' = j := Option.some.inj (hi'.symm.trans hstep)
      rcases ms with _ | ⟨m', ms⟩
      · exact hne (Option.some.inj hrest).symm
      · rw [walk_cons, hend m' (by simp)] at hrest
        cases hrest
    rw [hkept, hi']
    exact ih (fun m' hm' => hend m' (List.mem_cons_of_mem _ hm')) hrest

end Lemmas

end NameTree

end EspLwext4
