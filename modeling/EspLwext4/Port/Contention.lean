import EspLwext4.Port.Sharing
import Mathlib.Algebra.Order.BigOperators.Group.Finset

/-!
# Every interleaving

What holds at every moment of every run of any tasks that register, unregister, remove
recursively and serve the VFS, from the start of the system on.
-/

namespace EspLwext4.Port.Tasks

open Function (update update_self update_of_ne)

variable {τ : Type} {faults : Bool} {s : Shared} {p p' : Point} {a : Act}
variable {c c' : Interleaving.Config Shared Point τ} {ts ts' : List τ} {t u : τ}

/-- No task is in a call. -/
def boot (τ : Type) : Interleaving.Config Shared Point τ := ⟨.init, fun _ => .idle⟩

theorem init_inv : Shared.init.Inv where
  lock _ h := by cases h
  deleted _ h := by cases h
  freed _ h := by cases h
  live _ h := by cases h
  registered _ h := by cases h
  ids := .nil
  names := .nil
  agree _ i _ := by simp [Shared.init]

theorem init_kept {r : Resource} : ¬ Shared.init.Kept r := by
  cases r <;> simp [Shared.init, Shared.Kept]

theorem boot_holds : (protocol faults).Holds (boot τ) where
  inv := init_inv
  relies _ := .plain rfl rfl rfl rfl (fun _ h => by cases h) (fun _ h => by cases h)
    (fun _ h => by cases h) (fun _ h => by cases h)
  kept r := by
    refine ⟨fun h => (init_kept h).elim, fun ⟨_, h⟩ => ?_⟩
    cases r <;> cases h
  apart _ _ _ r h := by cases r <;> cases h

variable [DecidableEq τ]

/-- Steps of the tasks, in any order and with any failures. -/
abbrev Steps (c : Interleaving.Config Shared Point τ) (ts : List τ)
    (c' : Interleaving.Config Shared Point τ) : Prop :=
  Machine.Run (protocol true).Moves c ts c'

theorem holds_of_steps (hrun : Steps (boot τ) ts c) : (protocol true).Holds c :=
  protocol_sound.run boot_holds hrun

/-! ## A run

Two tasks make a semaphore each; the one that comes late registers a mount and serves the VFS,
while the other one is about to unregister that mount. -/

def raceEntry : Entry := ⟨0, [slash, 97], [slash]⟩

theorem Steps.then {a : Act} {p' : Point} (h : Steps (boot τ) ts c) (t : τ)
    (hstep : Step true c.shared (c.point t) a p') :
    Steps (boot τ) (ts ++ [t]) ⟨a.apply c.shared, update c.point t p'⟩ :=
  h.next ⟨a, p', hstep, rfl⟩

theorem race : ∃ ts c, Steps (boot Bool) ts c ∧ c.point true = .inside 0 ∧
    c.point false = .takeCtx (.unregister [slash, 97]) 0 raceEntry ∧
    c.shared.contextsLock = some 0 ∧ c.shared.created = 2 ∧ c.shared.allocated = 1 ∧
    c.shared.contexts = [raceEntry] := by
  refine ⟨_, _, .then (.then (.then (.then (.then (.then (.then (.then (.then (.then (.then (.then
    (.then (.then (.then (.then (.then (.then (.then (.then (.then .start
      false (.callUnregister [slash, 97])) false (.unset _ rfl)) false (.created _))
      true (.callRegister raceEntry rfl)) true (.unset _ rfl)) true (.created _))
      false (.installFirst _ 0 rfl)) true (.installLate _ 1 0 rfl)) true (.discarded _ 1 0))
      true (.taken _ 0 rfl)) true (.begun _ 0)) true (.newName _ 0 _))
      true (.published 0 _)) true (.nextSet 0 _)) true (.joined 0 _ _)) true (.left 0))
      true (.callback 0 rfl)) true (.entered 0 rfl rfl))
      false (.taken _ 0 rfl)) false (.begun _ 0)) false (.found _ raceEntry 0 [] _ rfl),
    rfl, rfl, rfl, rfl, rfl, rfl⟩

/-! ## The lock of the contexts -/

theorem lock_stays {n : ℕ} (h : Step faults s p a p') (hlock : s.contextsLock = some n) :
    (a.apply s).contextsLock = some n := by
  cases h with
  | installFirst j m hnone =>
    rw [hlock] at hnone
    cases hnone
  | _ => exact hlock

/-- **`contexts_lock_get`.** However the calls of `contexts_lock_get` interleave, one semaphore
guards the contexts: what a call returns is `s_contexts_lock`, which is never deleted and never
changes again; and every other semaphore it created is deleted, or one task still has it and is
going to. -/
theorem contexts_lock_made_once (hrun : Steps (boot τ) ts c) :
    (∀ t n, (c.point t).lock = some n → c.shared.contextsLock = some n ∧
      c.shared.deleted n = false) ∧
    (∀ n < c.shared.created, c.shared.contextsLock = some n ∨ c.shared.deleted n = true ∨
      ∃ t, (c.point t).candidate = some n) ∧
    (∀ t u n, (c.point t).candidate = some n → (c.point u).candidate = some n → t = u) ∧
    (∀ t n, (c.point t).candidate = some n → c.shared.contextsLock ≠ some n ∧
      c.shared.deleted n = false) ∧
    ∀ ts' c' n, Steps c ts' c' → c.shared.contextsLock = some n →
      c'.shared.contextsLock = some n := by
  have h := holds_of_steps hrun
  refine ⟨fun t n hn => ?_, fun n hn => ?_, fun t u n ht hu => ?_, fun t n ht => ?_, ?_⟩
  · have hlock := (h.relies t).lock n hn
    exact ⟨hlock, (h.inv.lock n hlock).2⟩
  · by_cases hlock : c.shared.contextsLock = some n
    · exact .inl hlock
    · cases hdeleted : c.shared.deleted n with
      | true => exact .inr (.inl rfl)
      | false => exact .inr (.inr ((h.kept (.candidate n)).mp ⟨hn, hdeleted, hlock⟩))
  · have howns : (protocol true).owns (c.point t) (.candidate n) := ht
    exact h.owner howns hu
  · obtain ⟨-, hdeleted, hlock⟩ := (h.kept (.candidate n)).mpr ⟨t, ht⟩
    exact ⟨hlock, hdeleted⟩
  · intro ts' c' n hrun' hlock
    refine hrun'.keeps (I := fun c => c.shared.contextsLock = some n) (C := fun _ => True) ?_
      (fun _ _ => trivial) hlock
    rintro _ _ _ hI - ⟨a, p', hstep, rfl⟩
    exact lock_stays hstep hI

theorem contexts_lock_made_once_race : ∃ c : Interleaving.Config Shared Point Bool,
    c.shared.created = 2 ∧ c.shared.contextsLock = some 0 ∧ c.shared.deleted 0 = false ∧
    (c.shared.deleted 1 = true ∨ ∃ t, (c.point t).candidate = some 1) := by
  obtain ⟨ts, c, hrun, htrue, hfalse, hlock, hcreated, -, -⟩ := race
  obtain ⟨hthe, hrest, -, -, -⟩ := contexts_lock_made_once hrun
  refine ⟨c, hcreated, hlock, (hthe false 0 (by rw [hfalse]; rfl)).2, ?_⟩
  rcases hrest 1 (by omega) with h | h
  · rw [hlock] at h
    cases h
  · exact h

/-! ## Mutual exclusion -/

/-- **Mutual exclusion.** One task at a time is between taking and giving back the lock of the
contexts, and one between taking and giving back the lock of a context; a lock is taken exactly
while some task is there. -/
theorem locks_exclude (hrun : Steps (boot τ) ts c) :
    (∀ t u n m, (c.point t).held = some n → (c.point u).held = some m → t = u) ∧
    (∀ t u i, (c.point t).ctxHeld = some i → (c.point u).ctxHeld = some i → t = u) ∧
    (∀ n, c.shared.contextsHeld n = true ↔ ∃ t, (c.point t).held = some n) ∧
    ∀ i, c.shared.ctxHeld i = true ↔ ∃ t, (c.point t).ctxHeld = some i := by
  have h := holds_of_steps hrun
  refine ⟨fun t u n m ht hu => ?_, fun t u i ht hu => ?_, fun n => h.kept (.contextsLock n),
    fun i => h.kept (.ctxLock i)⟩
  · by_contra hne
    exact not_both_held (h.relies t) (h.relies u) (h.apart t u hne) ht hu
  · have howns : (protocol true).owns (c.point t) (.ctxLock i) := ht
    exact h.owner howns hu

theorem locks_exclude_race : ∃ c : Interleaving.Config Shared Point Bool,
    (c.point true).ctxHeld = some 0 ∧ (c.point false).ctxHeld ≠ some 0 ∧
    c.shared.ctxHeld 0 = true ∧ c.shared.contextsHeld 0 = true := by
  obtain ⟨ts, c, hrun, htrue, hfalse, -⟩ := race
  obtain ⟨-, hctx, hheld, hctxHeld⟩ := locks_exclude hrun
  have hinside : (c.point true).ctxHeld = some 0 := by rw [htrue]; rfl
  refine ⟨c, hinside, fun h => ?_, (hctxHeld 0).mpr ⟨true, hinside⟩,
    (hheld 0).mpr ⟨false, by rw [hfalse]; rfl⟩⟩
  exact absurd (hctx _ _ 0 hinside h) (by decide)

/-! ## The contexts -/

def Job.entries : Job → List Entry
  | .register e => [e]
  | _ => []

/-- The contexts that a task reads or writes on its way. -/
def Point.uses : Point → List Entry
  | .load j | .create j | .install j _ | .discard j _ _ | .take j _ | .first j _ => j.entries
  | .scan j _ rest chosen => j.entries ++ rest ++ chosen.toList
  | .publish _ e | .linking _ e | .release _ e | .dispose e | .giveCtx _ e | .takeCtx _ _ e
  | .both _ _ e | .keep _ e | .unlinking _ e | .working e => [e]
  | .linked _ e next => e :: next
  | .idle | .leave _ | .waiting _ | .inside _ => []

/-- What a task uses is in the list, or its own. -/
theorem Point.uses_cases (h : Relies s p) {e : Entry} (he : e ∈ p.uses) :
    e ∈ s.contexts ∨ p.context = some e.id := by
  have own {j : Job} (hj : e ∈ j.entries) : j.context = some e.id := by
    cases j with
    | register x =>
      rw [List.mem_singleton.mp hj]
      rfl
    | _ => cases hj
  cases p with
  | scan j n rest chosen =>
    have hscanned := h.scanned _ rfl
    rcases List.mem_append.mp he with he | he
    · exact (List.mem_append.mp he).symm.imp hscanned.mem own
    · obtain rfl : chosen = some e := by simpa using he
      exact .inl hscanned.chosen_mem
  | linked n x next =>
    obtain rfl := h.next next rfl
    rcases List.mem_cons.mp he with rfl | he
    · exact .inr rfl
    · exact .inl he
  | load | create | install | discard | take | first => exact .inr (own he)
  | publish | linking | release | dispose | giveCtx =>
    rw [List.mem_singleton.mp he]
    exact .inr rfl
  | takeCtx | both | keep | unlinking | working =>
    rw [List.mem_singleton.mp he]
    exact .inl (h.target _ rfl)
  | _ => cases he

/-- **No use after free.** What `register`, `unregister` and `rmdir_recurse` read and write at
any moment, the rest of a list they are walking included, is allocated and not freed; what a
task is about to free is in no other task's use, in no list, and unknown to the VFS; and the
VFS hands its callbacks contexts that are not freed. -/
theorem calls_use_live_contexts (hrun : Steps (boot τ) ts c) :
    (∀ t, ∀ e ∈ (c.point t).uses, e.id < c.shared.allocated ∧ c.shared.freed e.id = false) ∧
    (∀ t e, c.point t = .dispose e → c.shared.registered e.id = false ∧
      (∀ x ∈ c.shared.contexts, x.id ≠ e.id) ∧
      ∀ u ≠ t, ∀ x ∈ (c.point u).uses, x.id ≠ e.id) ∧
    ∀ i, c.shared.registered i = true → i < c.shared.allocated ∧ c.shared.freed i = false := by
  have h := holds_of_steps hrun
  refine ⟨fun t e he => ?_, fun t e ht => ?_, h.inv.registered⟩
  · rcases Point.uses_cases (h.relies t) he with hlisted | hown
    · exact h.inv.live e hlisted
    · obtain ⟨hlt, hfreed, -⟩ := (h.kept (.context e.id)).mpr ⟨t, hown⟩
      exact ⟨hlt, hfreed⟩
  · have howns : (protocol true).owns (c.point t) (.context e.id) := by
      rw [ht]
      rfl
    obtain ⟨-, -, hlist⟩ := (h.kept (.context e.id)).mpr ⟨t, howns⟩
    refine ⟨(h.relies t).hidden e.id (by rw [ht]; rfl), hlist, fun u hne x hx hid => ?_⟩
    rcases Point.uses_cases (h.relies u) hx with hlisted | hown
    · exact hlist x hlisted hid
    · exact h.apart t u (Ne.symm hne) (.context e.id) howns (hid ▸ hown)

theorem calls_use_live_contexts_race : ∃ c : Interleaving.Config Shared Point Bool,
    (c.point false).uses = [raceEntry] ∧ c.shared.freed 0 = false := by
  obtain ⟨ts, c, hrun, htrue, hfalse, -⟩ := race
  have huses : (c.point false).uses = [raceEntry] := by rw [hfalse]; rfl
  refine ⟨c, huses, ?_⟩
  exact ((calls_use_live_contexts hrun).1 false raceEntry (by rw [huses]; decide)).2

/-- **Nothing is lost.** Every context ever allocated is freed, or registered, or held by the
one task that is still to link or to free it, and only one of these; so when no task is in a
call, what is not registered is freed. -/
theorem contexts_accounted (hrun : Steps (boot τ) ts c) :
    (∀ i < c.shared.allocated, c.shared.freed i = true ∨ (∃ x ∈ c.shared.contexts, x.id = i) ∨
      ∃ t, (c.point t).context = some i) ∧
    (∀ t u i, (c.point t).context = some i → (c.point u).context = some i → t = u) ∧
    (∀ x ∈ c.shared.contexts, x.id < c.shared.allocated ∧ c.shared.freed x.id = false) ∧
    ∀ i, (∃ t, (c.point t).context = some i) → c.shared.freed i = false ∧
      ∀ x ∈ c.shared.contexts, x.id ≠ i := by
  have h := holds_of_steps hrun
  refine ⟨fun i hi => ?_, fun t u i ht hu => ?_, h.inv.live, fun i hi => ?_⟩
  · by_cases hlisted : ∃ x ∈ c.shared.contexts, x.id = i
    · exact .inr (.inl hlisted)
    · cases hfreed : c.shared.freed i with
      | true => exact .inl rfl
      | false =>
        refine .inr (.inr ((h.kept (.context i)).mp ⟨hi, hfreed, fun x hx hid => ?_⟩))
        exact hlisted ⟨x, hx, hid⟩
  · have howns : (protocol true).owns (c.point t) (.context i) := ht
    exact h.owner howns hu
  · obtain ⟨-, hfreed, hlist⟩ := (h.kept (.context i)).mpr hi
    exact ⟨hfreed, hlist⟩

theorem contexts_accounted_race : ∃ c : Interleaving.Config Shared Point Bool,
    c.shared.allocated = 1 ∧ (c.shared.freed 0 = true ∨ (∃ x ∈ c.shared.contexts, x.id = 0) ∨
      ∃ t, (c.point t).context = some 0) ∧
    c.shared.contexts = [raceEntry] ∧ c.shared.freed raceEntry.id = false := by
  obtain ⟨ts, c, hrun, -, -, -, -, halloc, hlist⟩ := race
  obtain ⟨hall, -, hlive, -⟩ := contexts_accounted hrun
  exact ⟨c, halloc, hall 0 (by omega), hlist, (hlive raceEntry (by rw [hlist]; simp)).2⟩

/-- **The list of the mounts.** No base path and no mount point is registered twice, whatever
registrations run at once; and the list holds exactly the contexts the VFS knows, but for the
one that a task with the lock of the contexts is registering or unregistering. -/
theorem mounts_named_once (hrun : Steps (boot τ) ts c) :
    c.shared.contexts.Pairwise Entry.Apart ∧
    (∀ i, (c.shared.registered i = true ↔ ∃ x ∈ c.shared.contexts, x.id = i) ∨
      ∃ t, (c.point t).drift = some i) ∧
    ∀ t i, (c.point t).drift = some i → ∃ n, (c.point t).held = some n := by
  have h := holds_of_steps hrun
  refine ⟨h.inv.names, fun i => ?_, fun t i ht => ?_⟩
  · by_cases hheld : ∃ t n, (c.point t).held = some n
    · obtain ⟨t, n, hn⟩ := hheld
      by_cases hi : (c.point t).drift = some i
      · exact .inr ⟨t, hi⟩
      · exact .inl ((h.relies t).agree n hn i hi)
    · refine .inl (h.inv.agree (fun n _ => ?_) i (by simp))
      by_contra hfree
      have hbusy : c.shared.contextsHeld n = true := by simpa using hfree
      obtain ⟨t, ht⟩ := (h.kept (.contextsLock n)).mp hbusy
      exact hheld ⟨t, n, ht⟩
  · cases hp : c.point t with
    | linking n e | linked n e next | unlinking n e => exact ⟨n, rfl⟩
    | _ =>
      rw [hp] at ht
      cases ht

theorem mounts_named_once_race : ∃ c : Interleaving.Config Shared Point Bool,
    c.shared.contexts = [raceEntry] ∧ c.shared.contexts.Pairwise Entry.Apart := by
  obtain ⟨ts, c, hrun, -, -, -, -, -, hcontexts⟩ := race
  exact ⟨c, hcontexts, (mounts_named_once hrun).1⟩

/-- What a task has locked, no other task takes out of the list. -/
theorem listed_stays {i : ℕ} (hready : (protocol true).Ready s p) (h : Step true s p a p')
    (hother : p.ctxHeld ≠ some i) (hlisted : ∃ x ∈ s.contexts, x.id = i) :
    ∃ x ∈ (a.apply s).contexts, x.id = i := by
  obtain ⟨x, hx, hid⟩ := hlisted
  cases h with
  | joined n e next =>
    obtain rfl := hready.relies.next next rfl
    exact ⟨x, List.mem_cons_of_mem _ hx, hid⟩
  | parted n e =>
    refine ⟨x, (List.mem_erase_of_ne ?_).mpr hx, hid⟩
    rintro rfl
    exact hother (congrArg some hid)
  | _ => exact ⟨x, hx, hid⟩

/-- **A locked context stays.** As long as a task that has the lock of a registered context, a
callback or a recursive removal, takes no step of its own, whatever the other tasks do leaves
the context registered and allocated. -/
theorem locked_context_stays {i : ℕ} (hrun : Steps (boot τ) ts c)
    (hlock : (c.point t).ctxHeld = some i) (hlisted : ∃ x ∈ c.shared.contexts, x.id = i)
    (hrun' : Steps c ts' c') (hothers : ∀ u ∈ ts', u ≠ t) :
    c'.point t = c.point t ∧ (∃ x ∈ c'.shared.contexts, x.id = i) ∧ c'.shared.freed i = false := by
  have hkeeps : (protocol true).Holds c' ∧ c'.point t = c.point t ∧
      ∃ x ∈ c'.shared.contexts, x.id = i := by
    refine hrun'.keeps (C := fun u => u ≠ t)
      (I := fun d => (protocol true).Holds d ∧ d.point t = c.point t ∧
        ∃ x ∈ d.shared.contexts, x.id = i) ?_ hothers ⟨holds_of_steps hrun, rfl, hlisted⟩
    rintro d _ u ⟨hd, hpoint, hin⟩ hu ⟨a, p', hstep, rfl⟩
    refine ⟨protocol_sound.step hd ⟨a, p', hstep, rfl⟩, ?_, listed_stays (hd.ready u) hstep ?_ hin⟩
    · exact (update_of_ne (Ne.symm hu) ..).trans hpoint
    · intro hboth
      have howns : (protocol true).owns (d.point u) (.ctxLock i) := hboth
      have howns' : (protocol true).owns (d.point t) (.ctxLock i) := by
        rw [hpoint]
        exact hlock
      exact hu (hd.owner howns howns')
  obtain ⟨hholds, hpoint, x, hx, rfl⟩ := hkeeps
  exact ⟨hpoint, ⟨x, hx, rfl⟩, (hholds.inv.live x hx).2⟩

theorem locked_context_stays_race : ∃ c c' : Interleaving.Config Shared Point Bool,
    (protocol true).Moves c false c' ∧ c'.point true = .inside 0 ∧ c'.shared.freed 0 = false := by
  obtain ⟨ts, c, hrun, htrue, hfalse, -, -, -, hcontexts⟩ := race
  have hstep : Step true c.shared (c.point false) .tau (.leave 0) := by
    rw [hfalse]
    exact .ctxTakeFails _ 0 raceEntry rfl
  have hmoves : (protocol true).Moves c false _ := ⟨_, _, hstep, rfl⟩
  have hlock : (c.point true).ctxHeld = some 0 := by rw [htrue]; rfl
  have hlisted : ∃ x ∈ c.shared.contexts, x.id = 0 := by
    rw [hcontexts]
    exact ⟨raceEntry, List.mem_singleton_self _, rfl⟩
  obtain ⟨hpoint, -, hfreed⟩ := locked_context_stays hrun hlock hlisted (.single hmoves)
    (fun u hu => by rw [List.mem_singleton.mp hu]; decide)
  exact ⟨c, _, hmoves, hpoint.trans htrue, hfreed⟩

/-! ## The end of the calls -/

/-- How many steps a task can still take in its call, with at most `B` contexts in the list. -/
def Point.rank (B : ℕ) : Point → ℕ
  | .idle => 0
  | .leave _ | .dispose _ | .working _ | .inside _ => 1
  | .release _ _ | .keep _ _ | .linked _ _ _ | .waiting _ => 2
  | .giveCtx _ _ | .linking _ _ => 3
  | .unlinking _ _ | .publish _ _ => 4
  | .both _ _ _ => 5
  | .takeCtx _ _ _ => 6
  | .scan _ _ rest _ => 7 + rest.length
  | .first _ _ => 8 + B
  | .take _ _ => 9 + B
  | .discard _ _ _ => 10 + B
  | .install _ _ => 11 + B
  | .create _ => 12 + B
  | .load _ => 13 + B

/-- A step in a call comes nearer to its end. -/
theorem Step.rank_lt {B : ℕ} (h : Step faults s p a p') (hp : p ≠ .idle)
    (hB : s.contexts.length ≤ B) : p'.rank B < p.rank B := by
  cases h with
  | callRegister | callUnregister | callRmdirRecurse | callback => exact absurd rfl hp
  | createFails j | takeFails j =>
    cases j with
    | register | seek =>
      simp only [Job.abort, Point.rank]
      omega
  | _ =>
    simp only [Point.rank, List.length_cons, List.length_nil]
    omega

theorem Step.allocated_eq (h : Step faults s p a p') (hp : p ≠ .idle) :
    (a.apply s).allocated = s.allocated := by
  cases h with
  | callRegister => exact absurd rfl hp
  | _ => rfl

theorem Shared.Inv.length_le (h : s.Inv) : s.contexts.length ≤ s.allocated := by
  have hnodup : (s.contexts.map Entry.id).Nodup := List.pairwise_map.mpr h.ids
  have hsub : s.contexts.map Entry.id ⊆ List.range s.allocated := by
    intro i hi
    obtain ⟨x, hx, rfl⟩ := List.mem_map.mp hi
    exact List.mem_range.mpr (h.live x hx).1
  have hlen := (List.subperm_of_subset hnodup hsub).length_le
  simpa using hlen

/-- The task waits for a lock that is taken. -/
inductive Blocked (s : Shared) : Point → Prop
  | take (j : Job) (n : ℕ) : s.contextsHeld n = true → Blocked s (.take j n)
  | takeCtx (k : Seek) (n : ℕ) (e : Entry) : s.ctxHeld e.id = true → Blocked s (.takeCtx k n e)
  | waiting (i : ℕ) : s.ctxHeld i = true → Blocked s (.waiting i)

/-- The task is in a callback whose context has been freed. -/
def Stale (s : Shared) (p : Point) : Prop :=
  ∃ i, (p = .waiting i ∨ p = .inside i) ∧ s.freed i = true

/-- A task in a call can go on unless it waits. -/
theorem Step.of_not_blocked (hp : p ≠ .idle) (hblocked : ¬ Blocked s p) (hstale : ¬ Stale s p) :
    ∃ a p', Step false s p a p' := by
  have free {b : Bool} (h : ¬ b = true) : b = false := by simpa using h
  cases p with
  | idle => exact absurd rfl hp
  | load j =>
    cases hlock : s.contextsLock with
    | none => exact ⟨_, _, .unset j hlock⟩
    | some n => exact ⟨_, _, .loaded j n hlock⟩
  | create j => exact ⟨_, _, .created j⟩
  | install j n =>
    cases hlock : s.contextsLock with
    | none => exact ⟨_, _, .installFirst j n hlock⟩
    | some l => exact ⟨_, _, .installLate j n l hlock⟩
  | discard j n l => exact ⟨_, _, .discarded j n l⟩
  | take j n => exact ⟨_, _, .taken j n (free fun h => hblocked (.take j n h))⟩
  | first j n => exact ⟨_, _, .begun j n⟩
  | scan j n rest chosen =>
    cases j with
    | register e =>
      cases rest with
      | nil => exact ⟨_, _, .newName e n chosen⟩
      | cons item rest =>
        by_cases h : item.Apart e
        · exact ⟨_, _, .otherName e item n rest chosen h⟩
        · exact ⟨_, _, .sameName e item n rest chosen h⟩
    | seek k => cases k with
    | unregister basePath =>
      cases rest with
      | nil => exact ⟨_, _, .notFound basePath n chosen⟩
      | cons item rest =>
        by_cases h : item.basePath = basePath
        · exact ⟨_, _, .found basePath item n rest chosen h⟩
        · exact ⟨_, _, .passed basePath item n rest chosen h⟩
    | rmdirRecurse path =>
      cases rest with
      | nil =>
        cases chosen with
        | none => exact ⟨_, _, .noneChosen path n⟩
        | some e => exact ⟨_, _, .chosen path n e⟩
      | cons item rest => exact ⟨_, _, .weighed path item n rest chosen⟩
  | publish n e => exact ⟨_, _, .published n e⟩
  | linking n e => exact ⟨_, _, .nextSet n e⟩
  | linked n e next => exact ⟨_, _, .joined n e next⟩
  | release n e => exact ⟨_, _, .released n e⟩
  | leave n => exact ⟨_, _, .left n⟩
  | dispose e => exact ⟨_, _, .disposed e⟩
  | takeCtx k n e => exact ⟨_, _, .ctxTaken k n e (free fun h => hblocked (.takeCtx k n e h))⟩
  | both k n e =>
    cases k with
    | unregister basePath => exact ⟨_, _, .withdrawn basePath n e⟩
    | rmdirRecurse path => exact ⟨_, _, .handedOver path n e⟩
  | keep n e => exact ⟨_, _, .spared n e⟩
  | unlinking n e => exact ⟨_, _, .parted n e⟩
  | giveCtx n e => exact ⟨_, _, .ctxGiven n e⟩
  | working e => exact ⟨_, _, .worked e⟩
  | waiting i =>
    have hfreed := free fun h => hstale ⟨i, .inl rfl, h⟩
    exact ⟨_, _, .entered i hfreed (free fun h => hblocked (.waiting i h))⟩
  | inside i => exact ⟨_, _, .exited i (free fun h => hstale ⟨i, .inr rfl, h⟩)⟩

theorem not_stale_of_ctxHeld {i : ℕ} (hi : p.ctxHeld = some i) (hlive : s.freed i = false) :
    ¬ Stale s p := by
  rintro ⟨k, rfl | rfl, hfreed⟩
  · cases hi
  · cases hi
    rw [hlive] at hfreed
    cases hfreed

omit [DecidableEq τ] in
/-- Who has the lock of a context can go on. -/
theorem goes_on_of_ctxHeld (h : (protocol true).Holds c) {i : ℕ} (hlive : c.shared.freed i = false)
    (hi : c.shared.ctxHeld i = true) :
    ∃ u a p', c.point u ≠ .idle ∧ Step false c.shared (c.point u) a p' := by
  obtain ⟨u, hu⟩ := (h.kept (.ctxLock i)).mp hi
  have hheld : (c.point u).ctxHeld = some i := hu
  have hne : c.point u ≠ .idle := by
    intro hidle
    rw [hidle] at hheld
    cases hheld
  have hblocked : ¬ Blocked c.shared (c.point u) := by
    intro hblocked
    generalize c.point u = p at hblocked hheld
    cases hblocked <;> cases hheld
  obtain ⟨a, p', hstep⟩ := Step.of_not_blocked hne hblocked (not_stale_of_ctxHeld hheld hlive)
  exact ⟨u, a, p', hne, hstep⟩

omit [DecidableEq τ] in
/-- Who has the lock of the contexts can go on, or waits for one that can. -/
theorem goes_on_of_held (h : (protocol true).Holds c) {n : ℕ}
    (hn : c.shared.contextsHeld n = true) :
    ∃ u a p', c.point u ≠ .idle ∧ Step false c.shared (c.point u) a p' := by
  obtain ⟨u, hu⟩ := (h.kept (.contextsLock n)).mp hn
  have hheld : (c.point u).held = some n := hu
  have hrelies := h.relies u
  by_cases hblocked : Blocked c.shared (c.point u)
  · generalize c.point u = p at hblocked hheld hrelies
    cases hblocked with
    | take | waiting => cases hheld
    | takeCtx k n e he =>
      exact goes_on_of_ctxHeld h (h.inv.live e (hrelies.target e rfl)).2 he
  · have hne : c.point u ≠ .idle := by
      intro hidle
      rw [hidle] at hheld
      cases hheld
    have hstale : ¬ Stale c.shared (c.point u) := by
      rintro ⟨i, hp | hp, -⟩
      · rw [hp] at hheld
        cases hheld
      · rw [hp] at hheld
        cases hheld
    obtain ⟨a, p', hstep⟩ := Step.of_not_blocked hne hblocked hstale
    exact ⟨u, a, p', hne, hstep⟩

omit [DecidableEq τ] in
/-- No deadlock. -/
theorem goes_on (h : (protocol true).Holds c) (hne : c.point t ≠ .idle)
    (hstale : ¬ Stale c.shared (c.point t)) :
    ∃ u a p', c.point u ≠ .idle ∧ Step false c.shared (c.point u) a p' := by
  by_cases hblocked : Blocked c.shared (c.point t)
  · have hrelies := h.relies t
    generalize c.point t = p at hblocked hstale hrelies
    cases hblocked with
    | take j n hn => exact goes_on_of_held h hn
    | takeCtx k n e he =>
      exact goes_on_of_ctxHeld h (h.inv.live e (hrelies.target e rfl)).2 he
    | waiting i hi =>
      refine goes_on_of_ctxHeld h ?_ hi
      by_contra hfreed
      exact hstale ⟨i, .inl rfl, by simpa using hfreed⟩
  · obtain ⟨a, p', hstep⟩ := Step.of_not_blocked hne hblocked hstale
    exact ⟨t, a, p', hne, hstep⟩

/-- A step in a call, where no call begins. -/
def Continues (c : Interleaving.Config Shared Point τ) (t : τ)
    (c' : Interleaving.Config Shared Point τ) : Prop :=
  c.point t ≠ .idle ∧ (protocol true).Moves c t c'

/-- **The calls end.** Among finitely many tasks and as long as no call begins, whatever is
taken up and whatever fails, only a bounded number of steps is left; and while a task is in a
call, some task in a call can take a step that needs no failure. So nothing deadlocks, and
the calls end, but for callbacks whose context was freed under them. -/
theorem calls_end [Fintype τ] (hrun : Steps (boot τ) ts c) :
    (∀ ts' c', Machine.Run Continues c ts' c' →
      ts'.length ≤ ∑ t, (c.point t).rank c.shared.allocated) ∧
    ∀ t, c.point t ≠ .idle → ¬ Stale c.shared (c.point t) →
      ∃ u c', c.point u ≠ .idle ∧ (protocol false).Moves c u c' := by
  have h := holds_of_steps hrun
  constructor
  · intro ts' c' hrun'
    have hbound : (protocol true).Holds c' ∧ c'.shared.allocated = c.shared.allocated ∧
        ts'.length + ∑ t, (c'.point t).rank c.shared.allocated ≤
          ∑ t, (c.point t).rank c.shared.allocated := by
      induction hrun' with
      | start => exact ⟨h, rfl, by simp⟩
      | @next ts' u c₁ c' run last ih =>
        obtain ⟨h₁, halloc, hsum⟩ := ih
        obtain ⟨hne, a, p', hstep, rfl⟩ := last
        refine ⟨protocol_sound.step h₁ ⟨a, p', hstep, rfl⟩, ?_, ?_⟩
        · exact (hstep.allocated_eq hne).trans halloc
        · have hlen := h₁.inv.length_le
          rw [halloc] at hlen
          have hlt := hstep.rank_lt hne hlen
          have hsum' : ∑ t, (update c₁.point u p' t).rank c.shared.allocated <
              ∑ t, (c₁.point t).rank c.shared.allocated := by
            refine Finset.sum_lt_sum (fun t _ => ?_) ⟨u, Finset.mem_univ u, ?_⟩
            · by_cases ht : t = u
              · rw [ht, update_self]
                exact Nat.le_of_lt hlt
              · rw [update_of_ne ht]
            · rw [update_self]
              exact hlt
          simp only [List.length_append, List.length_singleton]
          omega
    exact Nat.le_trans (Nat.le_add_right _ _) hbound.2.2
  · intro t hne hstale
    obtain ⟨u, a, p', hu, hstep⟩ := goes_on h hne hstale
    exact ⟨u, _, hu, a, p', hstep, rfl⟩

theorem calls_end_race : ∃ c : Interleaving.Config Shared Point Bool,
    c.point false = .takeCtx (.unregister [slash, 97]) 0 raceEntry ∧
    ∃ u c', c.point u ≠ .idle ∧ (protocol false).Moves c u c' := by
  obtain ⟨ts, c, hrun, -, hfalse, -⟩ := race
  refine ⟨c, hfalse, (calls_end hrun).2 false ?_ ?_⟩
  · rw [hfalse]
    exact fun h => Point.noConfusion h
  · rw [hfalse]
    rintro ⟨i, h | h, -⟩ <;> cases h

end EspLwext4.Port.Tasks
