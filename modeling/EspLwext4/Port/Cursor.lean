import EspLwext4.Port.Seeks

/-!
# The directory cursor

A directory handle keeps an offset beside the iterator of lwext4. `readdir` and `seekdir`
advance the two in separate statements, `telldir` reports the offset alone. As long as the
directory does not change, the handle is a cursor over its entries.
-/

namespace EspLwext4.Port

open Prog Runs

section Adapter

variable {σ D : Type}

/-! ## The iterator of the library -/

/-- `listing` is what the directory of an open handle holds, `pending` what its iterator has
still to return. -/
structure IteratorLaws (env : Env σ D) (listing pending : DirSt σ D → List Ext4Direntry) :
    Prop where
  lock : ∀ fs d, listing ⟨(env.idf.semaphoreTake fs).2, d⟩ = listing ⟨fs, d⟩ ∧
    pending ⟨(env.idf.semaphoreTake fs).2, d⟩ = pending ⟨fs, d⟩
  dirOpen : ∀ p s d s', env.lwext4.dirOpen p s = .ok d s' → pending ⟨s', d⟩ = listing ⟨s', d⟩
  /-- the entries in order, then `NULL` -/
  next : ∀ st, (env.lwext4.dirEntryNext st).1 = (pending st).head? ∧
    pending (env.lwext4.dirEntryNext st).2 = (pending st).tail ∧
    listing (env.lwext4.dirEntryNext st).2 = listing st
  rewind : ∀ st, pending (env.lwext4.dirEntryRewind st) = listing st ∧
    listing (env.lwext4.dirEntryRewind st) = listing st

/-! ## A cursor over a list -/

/-- A call on an open directory handle. -/
inductive CursorCall where
  | readdir | readdirR | telldir
  | seekdir (k : ℕ)
deriving DecidableEq, Repr

inductive CursorAnswer where
  /-- `none` is `NULL` -/
  | entry (e : Option Dirent)
  | position (c : ℕ)
  | done
deriving DecidableEq, Repr

/-- The entry as `readdir` hands it out. -/
def Ext4Direntry.dirent (e : Ext4Direntry) : Dirent := ⟨e.inode, direntType e.inodeType, e.name⟩

/-- What a cursor at `c` answers. -/
def CursorCall.reply (entries : List Ext4Direntry) (c : ℕ) : CursorCall → CursorAnswer
  | .readdir | .readdirR => .entry (entries[c]?.map Ext4Direntry.dirent)
  | .telldir => .position c
  | .seekdir _ => .done

/-- Where the call leaves a cursor at `c` over `n` entries. -/
def CursorCall.moves (n c : ℕ) : CursorCall → ℕ
  | .readdir | .readdirR => if c < n then c + 1 else c
  | .telldir => c
  | .seekdir k => min k n

/-- The answers to a list of calls, each with whether it got the lock of the mount. -/
def replies (entries : List Ext4Direntry) :
    ℕ → List (Bool × CursorCall) → List (Except Errno CursorAnswer)
  | _, [] => []
  | c, (true, call) :: calls =>
    .ok (call.reply entries c) :: replies entries (call.moves entries.length c) calls
  | c, (false, _) :: calls => .error .eio :: replies entries c calls

/-! ## The calls on a handle -/

def CursorCall.run (env : Env σ D) (id : ℕ) : CursorCall → Call (MountSt σ D) CursorAnswer
  | .readdir => do
    let entry ← vfsLwext4Readdir env (some id)
    return .entry entry
  | .readdirR => do
    let entry ← vfsLwext4ReaddirR env (some id) true true
    return .entry entry
  | .telldir => do
    let offset ← vfsLwext4Telldir env (some id)
    return .position offset
  | .seekdir k => do
    vfsLwext4Seekdir env (some id) k
    return .done

def CursorCall.exec (env : Env σ D) (id : ℕ) (st : MountSt σ D) (call : CursorCall) : MountSt σ D :=
  (call.run env id).final st

/-- What the calls of a run answer. -/
def answers (env : Env σ D) (id : ℕ) :
    MountSt σ D → List CursorCall → List (Except Errno CursorAnswer)
  | _, [] => []
  | st, call :: calls => (call.run env id).answer st :: answers env id (call.exec env id st) calls

/-- The calls of a run, each with whether it gets the lock. -/
def grants (env : Env σ D) (id : ℕ) : MountSt σ D → List CursorCall → List (Bool × CursorCall)
  | _, [] => []
  | st, call :: calls =>
    ((env.idf.semaphoreTake st.fs).1, call) :: grants env id (call.exec env id st) calls

/-- What the directory of an open handle holds. -/
def entriesOf (listing : DirSt σ D → List Ext4Direntry) (st : MountSt σ D) (id : ℕ) :
    List Ext4Direntry :=
  match st.ctx.dirs.find? fun p => p.1 = id with
  | some p => listing ⟨st.fs, p.2.ext4⟩
  | none => []

/-! ## The handle and its iterator -/

variable {env : Env σ D} {listing pending : DirSt σ D → List Ext4Direntry}
  {entries : List Ext4Direntry} {c : ℕ}

/-- The offset and the iterator stand at `c`. -/
structure HandleAt (listing pending : DirSt σ D → List Ext4Direntry) (entries : List Ext4Direntry)
    (c : ℕ) (hst : HandleSt σ D) : Prop where
  offset : hst.handle.offset = c
  inside : c ≤ entries.length
  listing : listing ⟨hst.fs, hst.handle.ext4⟩ = entries
  pending : pending ⟨hst.fs, hst.handle.ext4⟩ = entries.drop c

section Handle

variable {hst : HandleSt σ D}

/-- The iterator after one more entry, with the offset still behind it. -/
def HandleSt.advanced (env : Env σ D) (hst : HandleSt σ D) : HandleSt σ D :=
  HandleSt.ext4Lens.set (env.lwext4.dirEntryNext ⟨hst.fs, hst.handle.ext4⟩).2 hst

theorem HandleAt.entryNext (hL : IteratorLaws env listing pending)
    (h : HandleAt listing pending entries c hst) :
    entryNext env hst = .ok entries[c]? (hst.advanced env) := by
  obtain ⟨hhead, -, -⟩ := hL.next ⟨hst.fs, hst.handle.ext4⟩
  rw [h.pending, List.head?_drop] at hhead
  rw [← hhead]
  rfl

/-- The iterator and the offset have moved over an entry. -/
theorem HandleAt.bumped (hL : IteratorLaws env listing pending)
    (h : HandleAt listing pending entries c hst) (hc : c < entries.length) :
    HandleAt listing pending entries (c + 1) ⟨(hst.advanced env).fs,
      { (hst.advanced env).handle with offset := (hst.advanced env).handle.offset + 1 }⟩ := by
  obtain ⟨-, htail, hlist⟩ := hL.next ⟨hst.fs, hst.handle.ext4⟩
  refine ⟨congrArg (· + 1) h.offset, hc, hlist.trans h.listing, htail.trans ?_⟩
  rw [h.pending, List.tail_drop]

/-- At the end nothing moves. -/
theorem HandleAt.ended (hL : IteratorLaws env listing pending)
    (h : HandleAt listing pending entries entries.length hst) :
    HandleAt listing pending entries entries.length (hst.advanced env) := by
  obtain ⟨-, htail, hlist⟩ := hL.next ⟨hst.fs, hst.handle.ext4⟩
  refine ⟨h.offset, h.inside, hlist.trans h.listing, htail.trans ?_⟩
  rw [h.pending, List.drop_length]
  rfl

theorem HandleAt.readdir (hL : IteratorLaws env listing pending)
    (h : HandleAt listing pending entries c hst) :
    ∃ hst', readdirLocked env hst = .ok (entries[c]?.map Ext4Direntry.dirent) hst' ∧
      HandleAt listing pending entries (if c < entries.length then c + 1 else c) hst' := by
  have hnext := h.entryNext hL
  by_cases hc : c < entries.length
  · rw [List.getElem?_eq_getElem hc] at hnext ⊢
    rw [if_pos hc]
    exact ⟨_, bind_of_ok hnext, h.bumped hL hc⟩
  · obtain rfl : c = entries.length := Nat.le_antisymm h.inside (Nat.le_of_not_lt hc)
    rw [List.getElem?_eq_none (Nat.le_refl _)] at hnext ⊢
    rw [if_neg hc]
    exact ⟨_, bind_of_ok hnext, h.ended hL⟩

/-- The skip: `rounds` entries, or to the end. -/
theorem HandleAt.seekdirLoop (hL : IteratorLaws env listing pending) (rounds : ℕ)
    (h : HandleAt listing pending entries c hst) :
    ∃ hst', seekdirLoop env rounds hst = .ok () hst' ∧
      HandleAt listing pending entries (min (c + rounds) entries.length) hst' := by
  induction rounds generalizing c hst with
  | zero =>
    have hstay : min (c + 0) entries.length = c := Nat.min_eq_left h.inside
    rw [hstay]
    exact ⟨hst, rfl, h⟩
  | succ rounds ih =>
    have hnext := h.entryNext hL
    by_cases hc : c < entries.length
    · rw [List.getElem?_eq_getElem hc] at hnext
      obtain ⟨hst', hloop, hat⟩ := ih (h.bumped hL hc)
      have hmin : c + 1 + rounds = c + (rounds + 1) := by omega
      rw [hmin] at hat
      exact ⟨hst', (bind_of_ok hnext).trans ((bind_of_ok rfl).trans hloop), hat⟩
    · obtain rfl : c = entries.length := Nat.le_antisymm h.inside (Nat.le_of_not_lt hc)
      rw [List.getElem?_eq_none (Nat.le_refl _)] at hnext
      rw [Nat.min_eq_right (Nat.le_add_right _ _)]
      exact ⟨_, bind_of_ok hnext, h.ended hL⟩

/-- The iterator rewound and the offset cleared. -/
def HandleSt.rewound (env : Env σ D) (hst : HandleSt σ D) : HandleSt σ D :=
  ⟨(env.lwext4.dirEntryRewind ⟨hst.fs, hst.handle.ext4⟩).fs,
    ⟨(env.lwext4.dirEntryRewind ⟨hst.fs, hst.handle.ext4⟩).dir, 0⟩⟩

theorem HandleAt.rewound (hL : IteratorLaws env listing pending)
    (h : HandleAt listing pending entries c hst) :
    HandleAt listing pending entries 0 (hst.rewound env) := by
  obtain ⟨hpending, hlist⟩ := hL.rewind ⟨hst.fs, hst.handle.ext4⟩
  exact ⟨rfl, Nat.zero_le _, hlist.trans h.listing, hpending.trans h.listing⟩

theorem HandleAt.seekdir (hL : IteratorLaws env listing pending) (k : ℕ)
    (h : HandleAt listing pending entries c hst) :
    ∃ hst', seekdirLocked env k hst = .ok () hst' ∧
      HandleAt listing pending entries (min k entries.length) hst' := by
  have hoffset := h.offset
  by_cases hback : k < c
  · -- a step back: from the start again, `k` entries
    obtain ⟨hst', hloop, hat⟩ := (h.rewound hL).seekdirLoop hL k
    rw [Nat.zero_add] at hat
    refine ⟨hst', (bind_of_ok rfl).trans ?_, hat⟩
    have hrewind : (whenever (k < hst.handle.offset) do
        zoom HandleSt.ext4Lens (update env.lwext4.dirEntryRewind)
        update fun hst => { hst with handle := { hst.handle with offset := 0 } } :
          Call (HandleSt σ D) Unit) hst = .ok () (hst.rewound env) := by
      unfold whenever
      rw [hoffset, if_pos hback]
      rfl
    exact (bind_of_ok hrewind).trans ((bind_of_ok rfl).trans hloop)
  · -- a step ahead: the difference
    obtain ⟨hst', hloop, hat⟩ := h.seekdirLoop hL (k - c)
    have hto : c + (k - c) = k := by omega
    rw [hto] at hat
    refine ⟨hst', (bind_of_ok rfl).trans ?_, hat⟩
    have hstay : (whenever (k < hst.handle.offset) do
        zoom HandleSt.ext4Lens (update env.lwext4.dirEntryRewind)
        update fun hst => { hst with handle := { hst.handle with offset := 0 } } :
          Call (HandleSt σ D) Unit) hst = .ok () hst := by
      unfold whenever
      rw [hoffset, if_neg hback]
      rfl
    refine (bind_of_ok hstay).trans ((bind_of_ok rfl).trans ?_)
    rw [hoffset]
    exact hloop

end Handle

/-! ## One call -/

section Calls

variable {st : MountSt σ D} {id : ℕ}

/-- The handle `id` of the context stands at `c`. -/
def CursorAt (listing pending : DirSt σ D → List Ext4Direntry) (entries : List Ext4Direntry)
    (id c : ℕ) (st : MountSt σ D) : Prop :=
  ∃ dir, (st.ctx.dirs.find? fun p => p.1 = id) = some (id, dir) ∧
    HandleAt listing pending entries c ⟨st.fs, dir⟩

theorem find?_setDir {ctx : Ctx D} {dir : EspDir D} (dir' : EspDir D)
    (h : (ctx.dirs.find? fun p => p.1 = id) = some (id, dir)) :
    ((ctx.setDir id dir').dirs.find? fun p => p.1 = id) = some (id, dir') := by
  unfold Ctx.setDir
  rw [List.find?_map]
  have hsame : ((fun p : ℕ × EspDir D => decide (p.1 = id)) ∘
      fun p => if p.1 = id then (id, dir') else p) = fun p => decide (p.1 = id) := by
    funext p
    by_cases hp : p.1 = id
    · simp [hp]
    · simp [hp]
  rw [hsame, h]
  simp

/-- The lock does not move the cursor. -/
theorem CursorAt.afterLock (hL : IteratorLaws env listing pending)
    (h : CursorAt listing pending entries id c st) :
    CursorAt listing pending entries id c (afterLock env st) := by
  obtain ⟨dir, hfind, hat⟩ := h
  obtain ⟨hlist, hpending⟩ := hL.lock st.fs dir.ext4
  exact ⟨dir, hfind, hat.offset, hat.inside, hlist.trans hat.listing, hpending.trans hat.pending⟩

theorem handleGet_of_find {dir : EspDir D}
    (h : (st.ctx.dirs.find? fun p => p.1 = id) = some (id, dir)) :
    (handleGet (some id) : Call (MountSt σ D) (ℕ × EspDir D)) st = .ok (id, dir) st := by
  refine (bind_of_ok rfl).trans ?_
  simp only [h]
  rfl

/-- A call that gets the lock is its work on the handle. -/
theorem CursorAt.granted (hL : IteratorLaws env listing pending) {α : Type} {c' : ℕ} {a : α}
    {m : Call (HandleSt σ D) α} (h : CursorAt listing pending entries id c st)
    (hlock : LockGranted env st)
    (hm : ∀ hst, HandleAt listing pending entries c hst →
      ∃ hst', m hst = .ok a hst' ∧ HandleAt listing pending entries c' hst') :
    ∃ st', onHandle env (some id) m st = .ok a st' ∧
      CursorAt listing pending entries id c' st' := by
  have hfound : (handleGet (some id) : Call (MountSt σ D) (ℕ × EspDir D)) st = .ok _ st :=
    handleGet_of_find h.choose_spec.1
  obtain ⟨dir, hfind, hat⟩ := h.afterLock hL
  obtain ⟨hst', hrun, hat'⟩ := hm _ hat
  refine ⟨(MountSt.handleLens id dir).set hst' (Port.afterLock env st), ?_, hst'.handle,
    find?_setDir hst'.handle hfind, hat'⟩
  refine (bind_of_ok hfound).trans ((locked_granted hlock).trans ?_)
  exact (bind_of_ok (handleGet_of_find hfind)).trans (zoom_of_ok hrun)

/-- A call that does not get the lock does nothing. -/
theorem CursorAt.refused {α : Type} {m : Call (HandleSt σ D) α}
    (h : CursorAt listing pending entries id c st) (hlock : ¬ LockGranted env st) :
    onHandle env (some id) m st = .err .eio (Port.afterLock env st) := by
  obtain ⟨dir, hfind, -⟩ := h
  refine (bind_of_ok (handleGet_of_find hfind)).trans ?_
  exact locked_refused hlock

/-- **One call** that gets the lock. -/
theorem CursorAt.step (hL : IteratorLaws env listing pending)
    (h : CursorAt listing pending entries id c st) (hlock : LockGranted env st)
    (call : CursorCall) :
    ∃ st', call.run env id st = .ok (call.reply entries c) st' ∧
      CursorAt listing pending entries id (call.moves entries.length c) st' := by
  have hread : ∃ st', vfsLwext4Readdir env (some id) st =
      .ok (entries[c]?.map Ext4Direntry.dirent) st' ∧
        CursorAt listing pending entries id (if c < entries.length then c + 1 else c) st' :=
    h.granted hL hlock fun _ hat => hat.readdir hL
  cases call with
  | readdir =>
    obtain ⟨st', hrun, hat⟩ := hread
    exact ⟨st', bind_of_ok hrun, hat⟩
  | readdirR =>
    obtain ⟨st', hrun, hat⟩ := hread
    refine ⟨st', bind_of_ok ((bind_of_ok (failIf_of_not ?_)).trans hrun), hat⟩
    rintro (hn | hn | hn)
    · cases hn
    · cases hn
    · cases hn
  | telldir =>
    obtain ⟨st', hrun, hat⟩ := h.granted hL hlock fun hst hat =>
      ⟨hst, (bind_of_ok rfl).trans (congrArg (fun o => Outcome.ok o hst) hat.offset), hat⟩
    exact ⟨st', bind_of_ok hrun, hat⟩
  | seekdir k =>
    obtain ⟨st', hrun, hat⟩ := h.granted hL hlock fun _ hat => hat.seekdir hL k
    have hk : ¬ (k : ℤ) < 0 := Int.not_lt.mpr (Int.natCast_nonneg k)
    exact ⟨st', bind_of_ok ((bind_of_ok (failIf_of_not hk)).trans hrun), hat⟩

/-- One call that does not get it. -/
theorem CursorAt.step_refused (hL : IteratorLaws env listing pending)
    (h : CursorAt listing pending entries id c st) (hlock : ¬ LockGranted env st)
    (call : CursorCall) :
    ∃ st', call.run env id st = .err .eio st' ∧ CursorAt listing pending entries id c st' := by
  refine ⟨Port.afterLock env st, ?_, h.afterLock hL⟩
  cases call with
  | readdir => exact bind_of_err (h.refused hlock)
  | readdirR =>
    refine bind_of_err ((bind_of_ok (failIf_of_not ?_)).trans (h.refused hlock))
    rintro (hn | hn | hn)
    · cases hn
    · cases hn
    · cases hn
  | telldir => exact bind_of_err (h.refused hlock)
  | seekdir k =>
    have hk : ¬ (k : ℤ) < 0 := Int.not_lt.mpr (Int.natCast_nonneg k)
    exact bind_of_err ((bind_of_ok (failIf_of_not hk)).trans (h.refused hlock))

/-! ## Runs -/

/-- Where a run leaves a cursor. -/
def cursorAfter (n : ℕ) : ℕ → List (Bool × CursorCall) → ℕ
  | c, [] => c
  | c, (true, call) :: calls => cursorAfter n (call.moves n c) calls
  | c, (false, _) :: calls => cursorAfter n c calls

/-- **A run.** The handle gives the answers of the cursor and stands where it stands. -/
theorem CursorAt.run (hL : IteratorLaws env listing pending)
    (h : CursorAt listing pending entries id c st) (calls : List CursorCall) :
    answers env id st calls = replies entries c (grants env id st calls) ∧
      CursorAt listing pending entries id
        (cursorAfter entries.length c (grants env id st calls))
        (run (CursorCall.exec env id) st calls) := by
  induction calls generalizing c st with
  | nil => exact ⟨rfl, h⟩
  | cons call calls ih =>
    unfold answers grants
    cases hlock : (env.idf.semaphoreTake st.fs).1 with
    | true =>
      obtain ⟨st', hrun, hat⟩ := h.step hL hlock call
      have hexec : call.exec env id st = st' := final_of_ok hrun
      obtain ⟨hanswers, hend⟩ := ih hat
      rw [run_cons, hexec, answer_of_ok hrun, hanswers]
      exact ⟨rfl, hend⟩
    | false =>
      have hrefused : ¬ LockGranted env st := fun hg => Bool.false_ne_true (hlock.symm.trans hg)
      obtain ⟨st', hrun, hat⟩ := h.step_refused hL hrefused call
      have hexec : call.exec env id st = st' := final_of_err hrun
      obtain ⟨hanswers, hend⟩ := ih hat
      rw [run_cons, hexec, answer_of_err hrun, hanswers]
      exact ⟨rfl, hend⟩

/-- A handle just opened stands before the first entry. -/
theorem IteratorLaws.opened (hL : IteratorLaws env listing pending) {st st₀ : MountSt σ D}
    {name : CStr} (hopen : vfsLwext4Opendir env name st = .ok id st₀) :
    CursorAt listing pending (entriesOf listing st₀ id) id 0 st₀ := by
  have hopened : wp (vfsLwext4Opendir env name)
      (fun id st₀ => ∃ d, (st₀.ctx.dirs.find? fun p => p.1 = id) = some (id, ⟨d, 0⟩) ∧
        pending ⟨st₀.fs, d⟩ = listing ⟨st₀.fs, d⟩)
      (fun _ _ => True) st := by
    unfold vfsLwext4Opendir locked onFs updateCtx
    simp only [wp_bind, wp_zoom, wp_getState, wp_update, wp_pure]
    refine wp_of_forall ?_ fun _ _ => trivial
    intro fullPath st₁
    refine wp_of_forall (fun _ fs => ?_) fun _ _ => trivial
    refine wp_of_forall (fun _ fs' => ?_) fun _ _ => trivial
    refine wp_returns_iff.mpr fun directory fs'' hdir => ?_
    exact ⟨directory, List.find?_cons_of_pos (by simp), hL.dirOpen _ _ _ _ hdir⟩
  obtain ⟨d, hfind, hpending⟩ := (wp_iff_of_ok hopen).mp hopened
  have hentries : listing ⟨st₀.fs, d⟩ = entriesOf listing st₀ id := by
    unfold entriesOf
    rw [hfind]
  exact ⟨⟨d, 0⟩, hfind, rfl, Nat.zero_le _, hentries, hpending.trans hentries⟩

/-- `telldir` that answers has the lock, and the position of the cursor. -/
theorem CursorAt.telldir (hL : IteratorLaws env listing pending)
    (h : CursorAt listing pending entries id c st) {p : ℕ}
    (htell : (CursorCall.telldir.run env id).answer st = .ok (.position p)) :
    p = c ∧ CursorAt listing pending entries id c (CursorCall.telldir.exec env id st) := by
  by_cases hlock : LockGranted env st
  · obtain ⟨st', hrun, hat⟩ := h.step hL hlock .telldir
    rw [answer_of_ok hrun] at htell
    have hexec : CursorCall.telldir.exec env id st = st' := final_of_ok hrun
    rw [hexec]
    cases htell
    exact ⟨rfl, hat⟩
  · obtain ⟨st', hrun, -⟩ := h.step_refused hL hlock .telldir
    rw [answer_of_err hrun] at htell
    cases htell

end Calls

/-! ## The directory handle as a cursor -/

/-- The calls of a run answer the same from both states when they get the lock alike. -/
def AnswerAlike (env : Env σ D) (id : ℕ) (st st' : MountSt σ D) : Prop :=
  ∀ calls, grants env id st calls = grants env id st' calls →
    answers env id st calls = answers env id st' calls

/-- **A directory handle is a cursor.** From `opendir` on, whatever the calls: each call that
gets the lock answers as a cursor over the entries does, `readdir` with the entry it stands
at or `NULL` at the end, `telldir` with its position, `seekdir` moving it there or to the
end; a call that does not get the lock fails and leaves it where it is. So behind a `seekdir`
to a position that `telldir` has returned, the calls answer as they did behind that. -/
theorem directory_handle_is_cursor (env : Env σ D) (listing pending : DirSt σ D → List Ext4Direntry)
    (hL : IteratorLaws env listing pending) (st st₀ : MountSt σ D) (name : CStr) (id : ℕ)
    (hopen : vfsLwext4Opendir env name st = .ok id st₀) :
    (∀ calls, answers env id st₀ calls =
      replies (entriesOf listing st₀ id) 0 (grants env id st₀ calls)) ∧
    ∀ before between p,
      let told := run (CursorCall.exec env id) st₀ before
      let back := run (CursorCall.exec env id) told (.telldir :: between)
      (CursorCall.telldir.run env id).answer told = .ok (.position p) → LockGranted env back →
        AnswerAlike env id ((CursorCall.seekdir p).exec env id back)
          (CursorCall.telldir.exec env id told) := by
  have hstart := hL.opened hopen
  refine ⟨fun calls => (hstart.run hL calls).1, ?_⟩
  intro before between p told back htell hlock calls hgrants
  obtain ⟨-, htold⟩ := hstart.run hL before
  obtain ⟨-, hback⟩ := htold.run hL (.telldir :: between)
  obtain ⟨hp, hbehind⟩ := htold.telldir hL htell
  rw [← hp] at htold hbehind
  have hle : p ≤ (entriesOf listing st₀ id).length := by
    obtain ⟨_, -, hat⟩ := htold
    exact hat.inside
  obtain ⟨st', hrun, hat⟩ := hback.step hL hlock (.seekdir p)
  have hexec : (CursorCall.seekdir p).exec env id back = st' := final_of_ok hrun
  change CursorAt _ _ _ _ (min p _) _ at hat
  rw [Nat.min_eq_left hle, ← hexec] at hat
  rw [(hat.run hL calls).1, (hbehind.run hL calls).1, hgrants]

end Adapter

/-! ## A directory of three entries -/

namespace Ram

/-- The iterator keeps the entries and how many it has returned. -/
def stepThrough (st : DirSt Ram (List Ext4Direntry × ℕ)) :
    Option Ext4Direntry × DirSt Ram (List Ext4Direntry × ℕ) :=
  match st.dir.1[st.dir.2]? with
  | none => (none, st)
  | some e => (some e, ⟨st.fs, (st.dir.1, st.dir.2 + 1)⟩)

theorem stepThrough_left (st : DirSt Ram (List Ext4Direntry × ℕ)) (e : Ext4Direntry)
    (st' : DirSt Ram (List Ext4Direntry × ℕ)) (h : stepThrough st = (some e, st')) :
    st'.dir.1.length - st'.dir.2 < st.dir.1.length - st.dir.2 := by
  unfold stepThrough at h
  by_cases hlt : st.dir.2 < st.dir.1.length
  · rw [List.getElem?_eq_getElem hlt] at h
    cases h
    exact Nat.sub_lt_sub_left hlt (Nat.lt_succ_self _)
  · rw [List.getElem?_eq_none (Nat.le_of_not_lt hlt)] at h
    cases h

/-- The library with iterators that can be rewound. -/
def rewindable : Lwext4 Ram (List Ext4Direntry × ℕ) where
  inodeExist := lwext4.inodeExist
  fopen2 := fopen2
  fclose := lwext4.fclose
  fread := fread
  fwrite := fwrite
  fseek := fseek
  ftruncate := ftruncate
  rawInodeFill := lwext4.rawInodeFill
  getSblock := lwext4.getSblock
  mountPointStats := lwext4.mountPointStats
  cacheFlush := lwext4.cacheFlush
  flink := lwext4.flink
  frename := lwext4.frename
  fremove := lwext4.fremove
  dirOpen p := onName p fun i s => if i ∈ s.dirs then .ok (s.entries p, 0) s else .err .enotdir s
  dirClose := fun st => .ok () st
  dirEntryNext := stepThrough
  dirEntryRewind st := ⟨st.fs, (st.dir.1, 0)⟩
  dirMk := lwext4.dirMk
  dirRm := lwext4.dirRm
  modeSet := lwext4.modeSet
  atimeSet := lwext4.atimeSet
  mtimeSet := lwext4.mtimeSet
  dirLeft d := d.1.length - d.2
  dirLeft_next := stepThrough_left

def rewindableEnv : Env Ram (List Ext4Direntry × ℕ) := ⟨rewindable, idf⟩

theorem iteratorLaws : IteratorLaws rewindableEnv (fun st => st.dir.1)
    fun st => st.dir.1.drop st.dir.2 where
  lock _ _ := ⟨rfl, rfl⟩
  dirOpen p s d s' h := by
    have hopen : wp (rewindable.dirOpen p) (fun d _ => d.1.drop d.2 = d.1) (fun _ _ => True) s := by
      refine wp_onName (fun _ => trivial) fun i _ => ?_
      unfold wp
      simp only
      split_ifs
      · exact List.drop_zero
      · trivial
    exact (wp_iff_of_ok h).mp hopen
  next st := by
    show (stepThrough st).1 = _ ∧ _
    unfold rewindableEnv rewindable stepThrough
    simp only
    by_cases hlt : st.dir.2 < st.dir.1.length
    · rw [List.getElem?_eq_getElem hlt, List.head?_drop, List.getElem?_eq_getElem hlt,
        List.tail_drop]
      exact ⟨rfl, rfl, rfl⟩
    · have hge := Nat.le_of_not_lt hlt
      rw [List.getElem?_eq_none hge, List.drop_eq_nil_of_le hge]
      exact ⟨rfl, rfl, rfl⟩
  rewind _ := ⟨List.drop_zero, rfl⟩

/-- `/a` holds `/a/c`. -/
def oneFile : MountSt Ram (List Ext4Direntry × ℕ) where
  fs := { blank with names := [(pathA, 12), ([47, 97, 47, 99], 13)], dirs := [12] }
  ctx := ⟨[], [slash], [], 0, 0, 0, ⟨[], 0⟩, false, [], 0, []⟩

/-- Behind a seek past the end there is nothing to read; after the seek back to where
`telldir` was called the next call reads the second entry. -/
theorem directory_handle_is_cursor_oneFile :
    answers rewindableEnv 0 ((vfsLwext4Opendir rewindableEnv pathA).final oneFile)
      [.readdir, .telldir, .seekdir 9, .readdirR, .telldir, .seekdir 1, .readdir] =
        [.ok (.entry (some ⟨0, .dir, [dot]⟩)), .ok (.position 1), .ok .done, .ok (.entry none),
          .ok (.position 3), .ok .done, .ok (.entry (some ⟨0, .dir, [dot, dot]⟩))] := by
  have hcursor := directory_handle_is_cursor rewindableEnv _ _ iteratorLaws oneFile
    ((vfsLwext4Opendir rewindableEnv pathA).final oneFile) pathA 0 rfl
  rw [hcursor.1]
  decide

end Ram

end EspLwext4.Port
