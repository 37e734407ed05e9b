import EspLwext4.Lib.Interleaving
import EspLwext4.Port.Register

/-!
# Tasks in the adapter

`esp_vfs_lwext4_register`, `esp_vfs_lwext4_unregister` and `esp_vfs_lwext4_rmdir_recurse` of
`port/esp_lwext4.c`, and the callbacks of the VFS, run by tasks that may be preempted between
any two accesses to what they share: the lock of the contexts that `contexts_lock_get` makes on
first use, the list of the contexts, and the lock of each context. What a call does before
`contexts_lock_get`, and with lwext4 under the lock of a context, touches none of these.
-/

namespace EspLwext4.Port.Tasks

/-! ## What the tasks share -/

/-- A context; `id` is the allocation that holds it and its lock. -/
structure Entry where
  id : ℕ
  basePath : CStr
  mountPoint : CStr
deriving DecidableEq, Repr

/-- `register` takes two contexts for different mounts. -/
def Entry.Apart (x y : Entry) : Prop := x.basePath ≠ y.basePath ∧ x.mountPoint ≠ y.mountPoint

instance (x y : Entry) : Decidable (x.Apart y) :=
  inferInstanceAs (Decidable (_ ∧ _))

structure Shared where
  /-- `s_contexts_lock` -/
  contextsLock : Option ℕ
  /-- how many semaphores `contexts_lock_get` has created -/
  created : ℕ
  deleted : ℕ → Bool
  /-- a task has taken the semaphore -/
  contextsHeld : ℕ → Bool
  /-- `s_contexts` -/
  contexts : List Entry
  /-- how many contexts have been allocated -/
  allocated : ℕ
  freed : ℕ → Bool
  /-- a task has taken the lock of the context -/
  ctxHeld : ℕ → Bool
  /-- the VFS knows the context -/
  registered : ℕ → Bool

def Shared.init : Shared where
  contextsLock := none
  created := 0
  deleted := fun _ => false
  contextsHeld := fun _ => false
  contexts := []
  allocated := 0
  freed := fun _ => false
  ctxHeld := fun _ => false
  registered := fun _ => false

/-! ## Where a task can be -/

/-- A call that looks for a context in the list. -/
inductive Seek where
  | unregister (basePath : CStr)
  | rmdirRecurse (path : CStr)

/-- The call a task is in. `register` has allocated its context. -/
inductive Job where
  | register (e : Entry)
  | seek (k : Seek)

inductive Point where
  | idle
  /-- the first critical section of `contexts_lock_get` -/
  | load (j : Job)
  | create (j : Job)
  /-- the second one, with the `candidate` -/
  | install (j : Job) (candidate : ℕ)
  | discard (j : Job) (candidate lock : ℕ)
  | take (j : Job) (lock : ℕ)
  /-- the loop over the contexts, before it reads `s_contexts` -/
  | first (j : Job) (lock : ℕ)
  /-- the contexts still to be looked at, and the one `rmdir_recurse` prefers so far -/
  | scan (j : Job) (lock : ℕ) (rest : List Entry) (chosen : Option Entry)
  /-- before `esp_vfs_register_fs` -/
  | publish (lock : ℕ) (e : Entry)
  /-- before `ctx->next = s_contexts` -/
  | linking (lock : ℕ) (e : Entry)
  /-- before `s_contexts = ctx` -/
  | linked (lock : ℕ) (e : Entry) (next : List Entry)
  /-- before `give_lock(contexts_lock)` and `context_free` -/
  | release (lock : ℕ) (e : Entry)
  /-- before `give_lock(contexts_lock)` and the return -/
  | leave (lock : ℕ)
  /-- before `context_free` -/
  | dispose (e : Entry)
  /-- before `take_lock(ctx->lock)` -/
  | takeCtx (k : Seek) (lock : ℕ) (e : Entry)
  | both (k : Seek) (lock : ℕ) (e : Entry)
  /-- `unregister` leaves the context alone -/
  | keep (lock : ℕ) (e : Entry)
  /-- before `*link = ctx->next` -/
  | unlinking (lock : ℕ) (e : Entry)
  | giveCtx (lock : ℕ) (e : Entry)
  /-- `rmdir_recurse` with the lock of the context only -/
  | working (e : Entry)
  /-- a callback before `take_lock(ctx->lock)` -/
  | waiting (id : ℕ)
  | inside (id : ℕ)

/-- The context `register` frees unless it is linked. -/
@[simp] def Job.context : Job → Option ℕ
  | .register e => some e.id
  | _ => none

/-- A call that fails before it has a lock. -/
@[simp] def Job.abort : Job → Point
  | .register e => .dispose e
  | _ => .idle

/-! ## What a step does to the shared state -/

inductive Act where
  | tau
  | allocate (id : ℕ)
  | create (n : ℕ)
  | install (n : ℕ)
  | delete (n : ℕ)
  | takeContexts (n : ℕ)
  | giveContexts (n : ℕ)
  | takeCtx (id : ℕ)
  | giveCtx (id : ℕ)
  | vfsRegister (id : ℕ)
  | vfsUnregister (id : ℕ)
  | link (e : Entry) (next : List Entry)
  | unlink (e : Entry)
  | free (id : ℕ)

open Function (update)

@[simp] def Act.apply : Act → Shared → Shared
  | .tau, s => s
  | .allocate _, s => { s with allocated := s.allocated + 1 }
  | .create _, s => { s with created := s.created + 1 }
  | .install n, s => { s with contextsLock := some n }
  | .delete n, s => { s with deleted := update s.deleted n true }
  | .takeContexts n, s => { s with contextsHeld := update s.contextsHeld n true }
  | .giveContexts n, s => { s with contextsHeld := update s.contextsHeld n false }
  | .takeCtx i, s => { s with ctxHeld := update s.ctxHeld i true }
  | .giveCtx i, s => { s with ctxHeld := update s.ctxHeld i false }
  | .vfsRegister i, s => { s with registered := update s.registered i true }
  | .vfsUnregister i, s => { s with registered := update s.registered i false }
  | .link e next, s => { s with contexts := e :: next }
  | .unlink e, s => { s with contexts := s.contexts.erase e }
  | .free i, s => { s with freed := update s.freed i true }

/-- One round of the loop of `rmdir_recurse`. -/
def prefer (path : CStr) (chosen : Option Entry) (item : Entry) : Option Entry :=
  if prefixMatches path item.basePath = true ∧
      (chosen.elim 0 fun e => e.basePath.length) < item.basePath.length then some item
  else chosen

/-- The step of a task from one point to the next. Steps that only a failing service makes
(no memory for a semaphore, a `xSemaphoreTake` that gives up, a VFS that refuses) need
`faults`. Whether `unregister` finds the context in use is left open. -/
inductive Step (faults : Bool) (s : Shared) : Point → Act → Point → Prop
  -- the calls begin
  | callRegister (e : Entry) : e.id = s.allocated →
      Step faults s .idle (.allocate e.id) (.load (.register e))
  | callUnregister (basePath : CStr) : Step faults s .idle .tau (.load (.seek (.unregister basePath)))
  | callRmdirRecurse (path : CStr) : Step faults s .idle .tau (.load (.seek (.rmdirRecurse path)))
  | callback (i : ℕ) : s.registered i = true → Step faults s .idle .tau (.waiting i)
  -- contexts_lock_get
  | loaded (j : Job) (n : ℕ) : s.contextsLock = some n → Step faults s (.load j) .tau (.take j n)
  | unset (j : Job) : s.contextsLock = none → Step faults s (.load j) .tau (.create j)
  | created (j : Job) : Step faults s (.create j) (.create s.created) (.install j s.created)
  | createFails (j : Job) : faults = true → Step faults s (.create j) .tau j.abort
  | installFirst (j : Job) (n : ℕ) : s.contextsLock = none →
      Step faults s (.install j n) (.install n) (.take j n)
  | installLate (j : Job) (n l : ℕ) : s.contextsLock = some l →
      Step faults s (.install j n) .tau (.discard j n l)
  | discarded (j : Job) (n l : ℕ) : Step faults s (.discard j n l) (.delete n) (.take j l)
  -- the lock of the contexts, and the loop over them
  | taken (j : Job) (n : ℕ) : s.contextsHeld n = false →
      Step faults s (.take j n) (.takeContexts n) (.first j n)
  | takeFails (j : Job) (n : ℕ) : faults = true → Step faults s (.take j n) .tau j.abort
  | begun (j : Job) (n : ℕ) : Step faults s (.first j n) .tau (.scan j n s.contexts none)
  | sameName (e item : Entry) (n : ℕ) (rest : List Entry) (chosen : Option Entry) :
      ¬ item.Apart e →
      Step faults s (.scan (.register e) n (item :: rest) chosen) .tau (.release n e)
  | otherName (e item : Entry) (n : ℕ) (rest : List Entry) (chosen : Option Entry) :
      item.Apart e → Step faults s (.scan (.register e) n (item :: rest) chosen) .tau
        (.scan (.register e) n rest chosen)
  | newName (e : Entry) (n : ℕ) (chosen : Option Entry) :
      Step faults s (.scan (.register e) n [] chosen) .tau (.publish n e)
  | found (basePath : CStr) (item : Entry) (n : ℕ) (rest : List Entry) (chosen : Option Entry) :
      item.basePath = basePath →
      Step faults s (.scan (.seek (.unregister basePath)) n (item :: rest) chosen) .tau
        (.takeCtx (.unregister basePath) n item)
  | passed (basePath : CStr) (item : Entry) (n : ℕ) (rest : List Entry) (chosen : Option Entry) :
      item.basePath ≠ basePath →
      Step faults s (.scan (.seek (.unregister basePath)) n (item :: rest) chosen) .tau
        (.scan (.seek (.unregister basePath)) n rest chosen)
  | notFound (basePath : CStr) (n : ℕ) (chosen : Option Entry) :
      Step faults s (.scan (.seek (.unregister basePath)) n [] chosen) .tau (.leave n)
  | weighed (path : CStr) (item : Entry) (n : ℕ) (rest : List Entry) (chosen : Option Entry) :
      Step faults s (.scan (.seek (.rmdirRecurse path)) n (item :: rest) chosen) .tau
        (.scan (.seek (.rmdirRecurse path)) n rest (prefer path chosen item))
  | noneChosen (path : CStr) (n : ℕ) :
      Step faults s (.scan (.seek (.rmdirRecurse path)) n [] none) .tau (.leave n)
  | chosen (path : CStr) (n : ℕ) (e : Entry) :
      Step faults s (.scan (.seek (.rmdirRecurse path)) n [] (some e)) .tau
        (.takeCtx (.rmdirRecurse path) n e)
  -- the end of register
  | published (n : ℕ) (e : Entry) :
      Step faults s (.publish n e) (.vfsRegister e.id) (.linking n e)
  | refused (n : ℕ) (e : Entry) : faults = true →
      Step faults s (.publish n e) .tau (.release n e)
  | nextSet (n : ℕ) (e : Entry) : Step faults s (.linking n e) .tau (.linked n e s.contexts)
  | joined (n : ℕ) (e : Entry) (next : List Entry) :
      Step faults s (.linked n e next) (.link e next) (.leave n)
  | released (n : ℕ) (e : Entry) :
      Step faults s (.release n e) (.giveContexts n) (.dispose e)
  | left (n : ℕ) : Step faults s (.leave n) (.giveContexts n) .idle
  | disposed (e : Entry) : Step faults s (.dispose e) (.free e.id) .idle
  -- the lock of the chosen context
  | ctxTaken (k : Seek) (n : ℕ) (e : Entry) : s.ctxHeld e.id = false →
      Step faults s (.takeCtx k n e) (.takeCtx e.id) (.both k n e)
  | ctxTakeFails (k : Seek) (n : ℕ) (e : Entry) : faults = true →
      Step faults s (.takeCtx k n e) .tau (.leave n)
  -- the end of unregister
  | inUse (basePath : CStr) (n : ℕ) (e : Entry) :
      Step faults s (.both (.unregister basePath) n e) .tau (.keep n e)
  | withdrawn (basePath : CStr) (n : ℕ) (e : Entry) :
      Step faults s (.both (.unregister basePath) n e) (.vfsUnregister e.id) (.unlinking n e)
  | parted (n : ℕ) (e : Entry) : Step faults s (.unlinking n e) (.unlink e) (.giveCtx n e)
  | spared (n : ℕ) (e : Entry) : Step faults s (.keep n e) (.giveCtx e.id) (.leave n)
  | ctxGiven (n : ℕ) (e : Entry) : Step faults s (.giveCtx n e) (.giveCtx e.id) (.release n e)
  -- the end of rmdir_recurse
  | handedOver (path : CStr) (n : ℕ) (e : Entry) :
      Step faults s (.both (.rmdirRecurse path) n e) (.giveContexts n) (.working e)
  | worked (e : Entry) : Step faults s (.working e) (.giveCtx e.id) .idle
  -- a callback; what it does with the lock of a context that is gone is undefined
  | entered (i : ℕ) : s.freed i = false → s.ctxHeld i = false →
      Step faults s (.waiting i) (.takeCtx i) (.inside i)
  | enterFails (i : ℕ) : faults = true → s.freed i = false → Step faults s (.waiting i) .tau .idle
  | exited (i : ℕ) : s.freed i = false → Step faults s (.inside i) (.giveCtx i) .idle

/-! ## Who owns what -/

inductive Resource where
  /-- a semaphore of `contexts_lock_get`, taken -/
  | contextsLock (n : ℕ)
  /-- one that is neither installed nor deleted -/
  | candidate (n : ℕ)
  /-- the lock of a context, taken -/
  | ctxLock (id : ℕ)
  /-- a context that is neither in the list nor freed -/
  | context (id : ℕ)

/-- What the task of an action comes to own. -/
@[simp] def Act.gains : Act → Option Resource
  | .allocate i => some (.context i)
  | .create n => some (.candidate n)
  | .takeContexts n => some (.contextsLock n)
  | .takeCtx i => some (.ctxLock i)
  | .unlink e => some (.context e.id)
  | _ => none

/-- What it owns no longer. -/
@[simp] def Act.loses : Act → Option Resource
  | .install n | .delete n => some (.candidate n)
  | .giveContexts n => some (.contextsLock n)
  | .giveCtx i => some (.ctxLock i)
  | .link e _ => some (.context e.id)
  | .free i => some (.context i)
  | _ => none

/-- The semaphore of the contexts a task has taken. -/
@[simp] def Point.held : Point → Option ℕ
  | .first _ n | .scan _ n _ _ | .publish n _ | .linking n _ | .linked n _ _ | .release n _
  | .leave n | .takeCtx _ n _ | .both _ n _ | .keep n _ | .unlinking n _ | .giveCtx n _ => some n
  | _ => none

@[simp] def Point.candidate : Point → Option ℕ
  | .install _ n | .discard _ n _ => some n
  | _ => none

/-- The context whose lock a task has taken. -/
@[simp] def Point.ctxHeld : Point → Option ℕ
  | .both _ _ e | .keep _ e | .unlinking _ e | .giveCtx _ e | .working e => some e.id
  | .inside i => some i
  | _ => none

/-- The context a task has to link or to free. -/
@[simp] def Point.context : Point → Option ℕ
  | .load j | .create j | .install j _ | .discard j _ _ | .take j _ | .first j _
  | .scan j _ _ _ => j.context
  | .publish _ e | .linking _ e | .linked _ e _ | .release _ e | .dispose e | .giveCtx _ e =>
      some e.id
  | _ => none

@[simp] def Point.Owns (p : Point) : Resource → Prop
  | .contextsLock n => p.held = some n
  | .candidate n => p.candidate = some n
  | .ctxLock i => p.ctxHeld = some i
  | .context i => p.context = some i

/-- The resources that the shared state gives out. -/
def Shared.Kept (s : Shared) : Resource → Prop
  | .contextsLock n => s.contextsHeld n = true
  | .candidate n => n < s.created ∧ s.deleted n = false ∧ s.contextsLock ≠ some n
  | .ctxLock i => s.ctxHeld i = true
  | .context i => i < s.allocated ∧ s.freed i = false ∧ ∀ x ∈ s.contexts, x.id ≠ i

/-! ## What a task relies on -/

/-- The semaphore a task has found in `s_contexts_lock`. -/
@[simp] def Point.lock : Point → Option ℕ
  | .discard _ _ l | .take _ l => some l
  | p => p.held

/-- The context of the list a task works on. -/
@[simp] def Point.target : Point → Option Entry
  | .takeCtx _ _ e | .both _ _ e | .keep _ e | .unlinking _ e | .working e => some e
  | _ => none

/-- The context `register` is about to publish or to link. -/
@[simp] def Point.fresh : Point → Option Entry
  | .publish _ e | .linking _ e | .linked _ e _ => some e
  | _ => none

/-- A context the VFS must not know. -/
@[simp] def Point.hidden : Point → Option ℕ
  | .linking _ _ | .linked _ _ _ => none
  | .unlinking _ e => some e.id
  | p => p.context

/-- A context the VFS knows. -/
@[simp] def Point.shown : Point → Option ℕ
  | .linking _ e | .linked _ e _ => some e.id
  | _ => none

/-- The context that only one of the VFS and the list has. -/
@[simp] def Point.drift : Point → Option ℕ
  | .linking _ e | .linked _ e _ | .unlinking _ e => some e.id
  | _ => none

/-- The VFS knows the contexts of the list, but for one. -/
def Shared.AgreeBut (skip : Option ℕ) (s : Shared) : Prop :=
  ∀ i, skip ≠ some i → (s.registered i = true ↔ ∃ x ∈ s.contexts, x.id = i)

/-- The state of the loop over the contexts. -/
@[simp] def Point.loop : Point → Option (Job × List Entry × Option Entry)
  | .scan j _ rest chosen => some (j, rest, chosen)
  | _ => none

/-- What `register` has read from `s_contexts`. -/
@[simp] def Point.next : Point → Option (List Entry)
  | .linked _ _ next => some next
  | _ => none

/-- What the loop has left behind it. -/
structure Scanned (contexts : List Entry) (j : Job) (rest : List Entry) (chosen : Option Entry) :
    Prop where
  behind : ∃ seen, contexts = seen ++ rest ∧ (∀ e, j = .register e → ∀ x ∈ seen, x.Apart e) ∧
    ∀ x, chosen = some x → x ∈ seen

structure Relies (s : Shared) (p : Point) : Prop where
  lock : ∀ n, p.lock = some n → s.contextsLock = some n
  target : ∀ e, p.target = some e → e ∈ s.contexts
  fresh : ∀ e, p.fresh = some e → ∀ x ∈ s.contexts, x.Apart e
  hidden : ∀ i, p.hidden = some i → s.registered i = false
  shown : ∀ i, p.shown = some i → s.registered i = true
  agree : ∀ n, p.held = some n → s.AgreeBut p.drift
  scanned : ∀ l, p.loop = some l → Scanned s.contexts l.1 l.2.1 l.2.2
  next : ∀ next, p.next = some next → next = s.contexts

/-- What holds of the shared state between any two steps. -/
structure Shared.Inv (s : Shared) : Prop where
  lock : ∀ n, s.contextsLock = some n → n < s.created ∧ s.deleted n = false
  deleted : ∀ n, s.deleted n = true → n < s.created
  freed : ∀ i, s.freed i = true → i < s.allocated
  live : ∀ x ∈ s.contexts, x.id < s.allocated ∧ s.freed x.id = false
  registered : ∀ i, s.registered i = true → i < s.allocated ∧ s.freed i = false
  ids : s.contexts.Pairwise fun x y => x.id ≠ y.id
  names : s.contexts.Pairwise Entry.Apart
  agree : (∀ n, s.contextsLock = some n → s.contextsHeld n = false) → s.AgreeBut none

/-- The protocol of the adapter. -/
def protocol (faults : Bool) : Interleaving.Protocol Shared Point Act Resource where
  step := Step faults
  apply := Act.apply
  gains a r := a.gains = some r
  loses a r := a.loses = some r
  owns := Point.Owns
  kept := Shared.Kept
  relies := Relies
  inv := Shared.Inv

end EspLwext4.Port.Tasks
