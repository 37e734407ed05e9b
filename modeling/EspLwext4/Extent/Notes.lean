import EspLwext4.Extent.Inert

/-!
# What a run notes

The log read as two lists: the runs that the checks accepted, and the blocks that the
allocator handed out. Only the checks and the allocator add to them.
-/

namespace EspLwext4

open Prog

variable (inodeRef : InodeRef)

/-- The run of an accepted entry. -/
def Event.accepted : Event → Option (ℕ × ℕ)
  | .checked first count => some (first, count)
  | _ => none

/-- The block the allocator answered. -/
def Event.answered : Event → Option ℕ
  | .ballocAllocBlock _ (.ok b) => some b
  | _ => none

/-- The blocks handed out since the log was `tr₀`, oldest first. -/
def handedOut (tr₀ tr : List Event) : List ℕ :=
  ((tr.take (tr.length - tr₀.length)).reverse).filterMap Event.answered

/-- Between `s` and `s'` the checks accepted `runs` and the allocator handed out `bs`. -/
def Noted (s s' : St) (runs : List (ℕ × ℕ)) (bs : List ℕ) : Prop :=
  ∃ evs : List Event, s'.trace = evs.reverse ++ s.trace ∧
    evs.filterMap Event.accepted = runs ∧ evs.filterMap Event.answered = bs

/-- Nothing but `runs` happened between `s` and `s'`. -/
structure Looked (s s' : St) (runs : List (ℕ × ℕ)) : Prop where
  bytes : s'.bytes = s.bytes
  noted : Noted s s' runs []

/-- No check accepts anything in `m`, nor is a block handed out. -/
def Mute {α : Type} (m : M α) : Prop := ∀ s, OnReturn m s fun _ s' => Noted s s' [] []

section Lemmas

variable {inodeRef} {s s' s'' : St} {runs runs' : List (ℕ × ℕ)} {bs bs' : List ℕ}
variable {α β : Type} {m : M α} {b : ℕ}

theorem Noted.refl (s : St) : Noted s s [] [] := ⟨[], rfl, rfl, rfl⟩

theorem Noted.trans (h : Noted s s' runs bs) (h' : Noted s' s'' runs' bs') :
    Noted s s'' (runs ++ runs') (bs ++ bs') := by
  obtain ⟨evs, ht, rfl, rfl⟩ := h
  obtain ⟨evs', ht', rfl, rfl⟩ := h'
  refine ⟨evs ++ evs', ?_, List.filterMap_append, List.filterMap_append⟩
  rw [ht', ht, List.reverse_append, List.append_assoc]

theorem Noted.then (h : Noted s s' runs bs) (h' : Noted s' s'' [] []) : Noted s s'' runs bs := by
  simpa using h.trans h'

theorem Noted.after (h : Noted s s' [] []) (h' : Noted s' s'' runs bs) : Noted s s'' runs bs :=
  h.trans h'

theorem Noted.of_trace (h : s'.trace = s.trace) : Noted s s' [] [] := ⟨[], h, rfl, rfl⟩

theorem Noted.log (s : St) (ev : Event) :
    Noted s (s.log ev) ev.accepted.toList ev.answered.toList := by
  refine ⟨[ev], rfl, ?_, ?_⟩
  · cases h : ev.accepted <;> simp [h]
  · cases h : ev.answered <;> simp [h]

theorem Noted.io (s : St) (c : IoCall) (r : Option Errno) : Noted s (s.log (.io c r)) [] [] :=
  .log s _

theorem Noted.suffix (h : Noted s s' runs bs) : s.trace <:+ s'.trace :=
  let ⟨evs, ht, _⟩ := h
  ⟨evs.reverse, ht.symm⟩

/-- The blocks handed out, read off the log. -/
theorem Noted.handedOut_eq (h : Noted s s' runs bs) : handedOut s.trace s'.trace = bs := by
  obtain ⟨evs, ht, -, rfl⟩ := h
  unfold handedOut
  have htake : s'.trace.take (s'.trace.length - s.trace.length) = evs.reverse := by
    rw [ht, List.length_append, Nat.add_sub_cancel, List.take_left]
  rw [htake, List.reverse_reverse]

theorem Looked.refl (s : St) : Looked s s [] := ⟨rfl, .refl s⟩

theorem Looked.trans (h : Looked s s' runs) (h' : Looked s' s'' runs') :
    Looked s s'' (runs ++ runs') := ⟨h'.bytes.trans h.bytes, h.noted.trans h'.noted⟩

theorem Looked.then (h : Looked s s' runs) (h' : Looked s' s'' []) : Looked s s'' runs :=
  ⟨h'.bytes.trans h.bytes, h.noted.then h'.noted⟩

theorem Looked.after (h : Looked s s' []) (h' : Looked s' s'' runs) : Looked s s'' runs := h.trans h'

theorem Looked.io (s : St) (c : IoCall) (r : Option Errno) : Looked s (s.log (.io c r)) [] :=
  ⟨rfl, .io s c r⟩

/-! ## Parts that note nothing -/

theorem Inert.mute (h : Inert m) : Mute m := fun s =>
  (OnReturn.of_triple (h (fun s' => s'.trace = s.trace) (fun _ => True)
    fun _ _ heq h => heq.trans h) rfl).mono fun _ _ => Noted.of_trace

theorem Still.mute (h : Still m) : Mute m := fun s =>
  (OnReturn.of_triple (h (fun s' => s'.trace = s.trace) fun _ _ heq h => heq.trans h) rfl).mono
    fun _ _ => Noted.of_trace

theorem Mute.pure (a : α) : Mute (Pure.pure a : M α) := fun s => .pure (.refl s)

theorem Mute.raise (e : Errno) : Mute (Prog.raise e : M α) := fun _ => .raise e

theorem Mute.bind {f : α → M β} (h : Mute m) (h' : ∀ a, Mute (f a)) : Mute (m >>= f) :=
  fun s => (h s).bind fun a s₁ h₁ => (h' a s₁).mono fun _ _ => h₁.after

theorem Mute.ite {c : Prop} [Decidable c] {n : M α} (h : Mute m) (h' : Mute n) :
    Mute (if c then m else n) := fun s => .ite (fun _ => h s) fun _ => h' s

theorem Mute.whenever {c : Prop} [Decidable c] {n : M Unit} (h : Mute n) :
    Mute (Prog.whenever c n) := h.ite (.pure ())

theorem Mute.onError {c : M Unit} (h : Mute m) : Mute (m.onError c) := fun s => (h s).onError

theorem mute_callIo (c : IoCall) : Mute (callIo inodeRef c) := fun s => .of_wp (E := fun _ _ => True)
  (wp_callIo.mpr (.io s c _))

theorem mute_checked_callIo (c : IoCall) : Mute (callIo inodeRef c >>= check) :=
  (mute_callIo c).bind fun r => (still_check r).mute

theorem mute_nodeBlockGet (site : Site) : Mute (nodeBlockGet inodeRef site b) :=
  mute_checked_callIo _

theorem mute_blockSet : Mute (blockSet inodeRef b) := mute_checked_callIo _

theorem mute_nodeBlockPut : Mute (nodeBlockPut inodeRef b) :=
  (mute_callIo _).bind fun _ => (mute_callIo _).bind fun _ => (still_check _).mute

theorem mute_getForWrite (site : Site) (node : ExtentPathNode) :
    Mute (getForWrite inodeRef site node) := (Mute.pure ()).ite (mute_nodeBlockGet site)

theorem mute_finishBlock : Mute (finishBlock inodeRef b) :=
  (still_setExtentBlockChecksum false).mute.onError.bind fun _ => mute_nodeBlockPut

theorem mute_finishNode (node : ExtentPathNode) : Mute (finishNode inodeRef node) :=
  inert_setInodeDirty.mute.ite mute_finishBlock

theorem onReturn_nodeBlockGet (site : Site) :
    OnReturn (nodeBlockGet inodeRef site b) s fun _ s' => Looked s s' [] :=
  .of_wp (E := fun _ _ => True) (wp_nodeBlockGet.mpr ⟨fun _ => .io s _ _, fun _ _ => trivial⟩)

theorem onReturn_transBlockGetNoread :
    OnReturn (transBlockGetNoread inodeRef b) s fun _ s' => Looked s s' [] :=
  .of_wp (E := fun _ _ => True) (wp_transBlockGetNoread.mpr ⟨fun _ => .io s _ _, fun _ _ => trivial⟩)

theorem onReturn_blockSet : OnReturn (blockSet inodeRef b) s fun _ s' => Looked s s' [] :=
  .of_wp (E := fun _ _ => True) (wp_blockSet.mpr ⟨fun _ => .io s _ _, fun _ _ => trivial⟩)

theorem onReturn_nodeBlockPut : OnReturn (nodeBlockPut inodeRef b) s fun _ s' => Looked s s' [] := by
  refine .of_wp (E := fun _ _ => True) ?_
  unfold nodeBlockPut
  rw [wp_bind, wp_callIo, wp_bind, wp_callIo, wp_check]
  exact ⟨fun _ => (Looked.io s _ _).then (.io _ _ _), fun _ _ => trivial⟩

theorem onReturn_ballocAllocBlock (goal : ℕ) : OnReturn (ballocAllocBlock inodeRef goal) s
    fun b s' => s'.bytes = s.bytes ∧ Noted s s' [] [b] :=
  .of_wp (E := fun _ _ => True) (wp_ballocAllocBlock.mpr
    ⟨fun _ _ => ⟨rfl, .log s _⟩, fun _ _ => trivial⟩)

/-- Releasing the block of the step before, whatever comes of it. -/
theorem onReturn_releaseHeld {held : Option ℕ} :
    OnReturn (releaseHeld inodeRef held).attempt s fun _ s' => Looked s s' [] := by
  refine .of_wp (E := fun _ _ => True) ?_
  rw [wp_attempt]
  cases held with
  | none => exact .refl s
  | some b => exact wp_blockSet.mpr ⟨fun _ => .io s _ _, fun _ _ => .io s _ _⟩

end Lemmas

end EspLwext4
