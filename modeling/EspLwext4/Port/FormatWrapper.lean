import EspLwext4.Lib.Batches
import EspLwext4.Lib.Machine
import EspLwext4.Port.Formatting

/-!
# The device that `ext4_mkfs` sees

`lwext4_port_format_blockdev` does not hand its device to `ext4_mkfs` but a wrapper of it, which
takes the device's lock for every transfer, counts the blocks of those that succeed and calls
`progress` whenever 4096 blocks have been moved since the last call. Over every run of requests
the calls of `progress` are those that the transfers ask for, and the lock is given back as often
as it is taken.
-/

namespace EspLwext4.Port.Format

open Prog
open Bdl (uint64)

/-! ## The wrapper -/

/-- What the port sets and uses of `struct ext4_blockdev` and its interface. `β` are the pointers
to buffers; the buffers are in the state. A lock that is `none` is `NULL`. -/
structure Device (σ β : Type) where
  phBsize : ℕ
  phBcnt : ℕ
  phBbuf : β
  partOffset : ℕ
  partSize : ℕ
  openDevice : Prog Empty Errno σ Unit
  bread : β → ℕ → ℕ → Prog Empty Errno σ Unit
  bwrite : β → ℕ → ℕ → Prog Empty Errno σ Unit
  closeDevice : Prog Empty Errno σ Unit
  lock : Option (Prog Empty Errno σ Unit)
  unlock : Option (Prog Empty Errno σ Unit)

/-- `lwext4_port_format_wrapper_t` with the state of the inner device. -/
structure Wrapper (σ : Type) where
  inner : σ
  blocksSinceProgress : ℕ
  blocksRead : ℕ
  blocksWritten : ℕ
  /-- the arguments `progress` was called with, most recent first -/
  reports : List (ℕ × ℕ)

section Source

variable {σ β : Type} (inner : Device σ β) (progress : Bool)

def innerLens : Lens (Wrapper σ) σ where
  get w := w.inner
  set s w := { w with inner := s }

def formatWrapperOpen : Prog Empty Errno (Wrapper σ) Unit := zoom innerLens inner.openDevice

def formatWrapperClose : Prog Empty Errno (Wrapper σ) Unit := zoom innerLens inner.closeDevice

def formatWrapperReport (w : Wrapper σ) : Wrapper σ :=
  { w with
    blocksSinceProgress := 0
    reports := (uint64 (w.blocksRead * inner.phBsize), uint64 (w.blocksWritten * inner.phBsize)) ::
      w.reports }

/-- `progress` is false when the callback is `NULL`. -/
def formatWrapperAccount (blockCount : ℕ) (w : Wrapper σ) : Wrapper σ :=
  if progress = false then w
  else
    let since :=
      if 4294967295 - w.blocksSinceProgress < blockCount then 4096
      else w.blocksSinceProgress + blockCount
    let w := { w with blocksSinceProgress := since }
    if 4096 ≤ since then formatWrapperReport inner w else w

/-- An operation of the inner device between its lock and its unlock. -/
def underLock (op : Prog Empty Errno σ Unit) : Prog Empty Errno σ Unit := do
  match inner.lock with
  | none => pure ()
  | some lock => lock
  let rc ← op.attempt
  match inner.unlock with
  | none => ofExcept rc
  | some unlock => do
    let unlockRc ← unlock.attempt
    firstError rc unlockRc

def formatWrapperRead (buffer : β) (blockId blockCount : ℕ) :
    Prog Empty Errno (Wrapper σ) Unit := do
  zoom innerLens (underLock inner (inner.bread buffer blockId blockCount))
  update fun w => formatWrapperAccount inner progress blockCount
    { w with blocksRead := uint64 (w.blocksRead + blockCount) }

def formatWrapperWrite (buffer : β) (blockId blockCount : ℕ) :
    Prog Empty Errno (Wrapper σ) Unit := do
  zoom innerLens (underLock inner (inner.bwrite buffer blockId blockCount))
  update fun w => formatWrapperAccount inner progress blockCount
    { w with blocksWritten := uint64 (w.blocksWritten + blockCount) }

/-- The wrapper has no lock of its own. -/
def formatWrapperInit : Device (Wrapper σ) β where
  phBsize := inner.phBsize
  phBcnt := inner.phBcnt
  phBbuf := inner.phBbuf
  partOffset := inner.partOffset
  partSize := inner.partSize
  openDevice := formatWrapperOpen inner
  bread := formatWrapperRead inner progress
  bwrite := formatWrapperWrite inner progress
  closeDevice := formatWrapperClose inner
  lock := none
  unlock := none

def Wrapper.start (s : σ) : Wrapper σ where
  inner := s
  blocksSinceProgress := 0
  blocksRead := 0
  blocksWritten := 0
  reports := []

end Source

/-! ## Runs of requests -/

inductive Request (β : Type) where
  | openDevice
  | closeDevice
  | bread (buffer : β) (blockId blockCount : ℕ)
  | bwrite (buffer : β) (blockId blockCount : ℕ)

/-- What a user of a device does: work with its own data, or a request, with the answer. -/
inductive Action (β : Type) where
  | own
  | asked (request : Request β) (answer : Except Errno Unit)

/-- The blocks that a request has moved. -/
structure Transfer where
  read : ℕ
  written : ℕ

section Runs

variable {σ τ β : Type}

def Request.perform (device : Device τ β) : Request β → Prog Empty Errno τ Unit
  | .openDevice => device.openDevice
  | .closeDevice => device.closeDevice
  | .bread buffer blockId blockCount => device.bread buffer blockId blockCount
  | .bwrite buffer blockId blockCount => device.bwrite buffer blockId blockCount

/-- One action of a user of the device. Its own work does to the state what `own` allows. -/
def Uses (device : Device τ β) (own : τ → τ → Prop) (t : τ) : Action β → τ → Prop
  | .own, t' => own t t'
  | .asked request answer, t' =>
    (request.perform device).answer t = answer ∧ (request.perform device).final t = t'

/-- Work that does to the state of the inner device what `own` allows, and leaves the wrapper
alone. -/
def Inside (own : σ → σ → Prop) (w w' : Wrapper σ) : Prop :=
  ∃ s, own w.inner s ∧ w' = { w with inner := s }

/-- The requests of `ext4_mkfs` to the wrapper. -/
def Drives (inner : Device σ β) (progress : Bool) (own : σ → σ → Prop) :
    Wrapper σ → Action β → Wrapper σ → Prop :=
  Uses (formatWrapperInit inner progress) (Inside own)

def Action.moved : Action β → List Transfer
  | .asked (.bread _ _ count) (.ok ()) => [⟨count, 0⟩]
  | .asked (.bwrite _ _ count) (.ok ()) => [⟨0, count⟩]
  | _ => []

def Transfer.blocks (x : Transfer) : ℕ := x.read + x.written

/-- The arguments of `progress` after the batches, most recent first. -/
def reportsAfter (phBsize : ℕ) : List (List Transfer) → List (ℕ × ℕ)
  | [] => []
  | batch :: earlier =>
    (uint64 (totalOf Transfer.read (batch :: earlier).flatten * phBsize),
      uint64 (totalOf Transfer.written (batch :: earlier).flatten * phBsize)) ::
      reportsAfter phBsize earlier

/-! ## What the wrapper does to the device -/

variable {inner : Device σ β} {progress : Bool} {own : σ → σ → Prop} {w w' : Wrapper σ}

@[simp] theorem formatWrapperAccount_inner (blockCount : ℕ) (w : Wrapper σ) :
    (formatWrapperAccount inner progress blockCount w).inner = w.inner := by
  unfold formatWrapperAccount formatWrapperReport
  by_cases hset : progress = false
  · rw [if_pos hset]
  · rw [if_neg hset]
    exact (apply_ite Wrapper.inner _ _ _).trans (ite_self _)

/-- Accounting does nothing to the device. -/
theorem wp_formatWrapperRead (progress : Bool) {buffer : β} {blockId blockCount : ℕ}
    {Q E : σ → Prop}
    (h : wp (underLock inner (inner.bread buffer blockId blockCount)) (fun _ => Q) (fun _ => E)
      w.inner) :
    wp (formatWrapperRead inner progress buffer blockId blockCount) (fun _ w' => Q w'.inner)
      (fun _ w' => E w'.inner) w := by
  unfold formatWrapperRead
  rw [wp_bind, wp_zoom]
  refine wp_mono h (fun _ s hs => ?_) fun _ s hs => hs
  rw [wp_update, formatWrapperAccount_inner]
  exact hs

theorem wp_formatWrapperWrite (progress : Bool) {buffer : β} {blockId blockCount : ℕ}
    {Q E : σ → Prop}
    (h : wp (underLock inner (inner.bwrite buffer blockId blockCount)) (fun _ => Q) (fun _ => E)
      w.inner) :
    wp (formatWrapperWrite inner progress buffer blockId blockCount) (fun _ w' => Q w'.inner)
      (fun _ w' => E w'.inner) w := by
  unfold formatWrapperWrite
  rw [wp_bind, wp_zoom]
  refine wp_mono h (fun _ s hs => ?_) fun _ s hs => hs
  rw [wp_update, formatWrapperAccount_inner]
  exact hs

/-! ## The progress that is reported -/

theorem uint64_add (a b : ℕ) : uint64 (uint64 a + b) = uint64 (a + b) := Nat.mod_add_mod a _ b

theorem uint64_mul (a b : ℕ) : uint64 (uint64 a * b) = uint64 (a * b) := Nat.mod_mul_mod a b _

/-- What the wrapper has noted of the transfers so far. -/
structure Accounted (inner : Device σ β) (progress : Bool) (moved : List Transfer)
    (w : Wrapper σ) : Prop where
  read : w.blocksRead = uint64 (totalOf Transfer.read moved)
  written : w.blocksWritten = uint64 (totalOf Transfer.written moved)
  silent : progress = false → w.reports = []
  reported : progress = true → ∃ batches rest,
    Batched 4096 Transfer.blocks moved batches rest ∧
    w.blocksSinceProgress = totalOf Transfer.blocks rest ∧
    w.reports = reportsAfter inner.phBsize batches

variable {moved : List Transfer} {action : Action β} {ls : List (Action β)}

theorem Accounted.start (inner : Device σ β) (progress : Bool) (s : σ) :
    Accounted inner progress [] (Wrapper.start s) where
  read := rfl
  written := rfl
  silent := fun _ => rfl
  reported := fun _ => ⟨[], [], .start (by decide), rfl, rfl⟩

/-- The counter does not wrap: where it would, the interval is over anyway. -/
theorem account_eq {blockCount : ℕ} (hsince : w.blocksSinceProgress < 4096) :
    formatWrapperAccount inner true blockCount w =
      if w.blocksSinceProgress + blockCount < 4096
      then { w with blocksSinceProgress := w.blocksSinceProgress + blockCount }
      else formatWrapperReport inner w := by
  unfold formatWrapperAccount
  rw [if_neg Bool.noConfusion]
  by_cases hwrap : 4294967295 - w.blocksSinceProgress < blockCount
  · simp only [if_pos hwrap, if_pos (Nat.le_refl 4096)]
    rw [if_neg (by omega)]
    rfl
  · simp only [if_neg hwrap]
    by_cases hfull : w.blocksSinceProgress + blockCount < 4096
    · rw [if_pos hfull, if_neg (by omega)]
    · rw [if_neg hfull, if_pos (by omega)]
      rfl

/-- **One transfer.** -/
theorem Accounted.account {x : Transfer} (h : Accounted inner progress moved w) :
    Accounted inner progress (moved ++ [x]) (formatWrapperAccount inner progress x.blocks
      { w with
        blocksRead := uint64 (w.blocksRead + x.read)
        blocksWritten := uint64 (w.blocksWritten + x.written) }) := by
  have hread : uint64 (w.blocksRead + x.read) = uint64 (totalOf Transfer.read (moved ++ [x])) := by
    rw [totalOf_concat, h.read, uint64_add]
  have hwritten : uint64 (w.blocksWritten + x.written) =
      uint64 (totalOf Transfer.written (moved ++ [x])) := by
    rw [totalOf_concat, h.written, uint64_add]
  cases progress with
  | false => exact ⟨hread, hwritten, fun _ => h.silent rfl, fun hno => by cases hno⟩
  | true =>
    obtain ⟨batches, rest, hbatched, hsince, hreports⟩ := h.reported rfl
    have hopen := hbatched.rest
    rw [account_eq (by rw [hsince]; exact hopen)]
    simp only [hsince]
    by_cases hx : totalOf Transfer.blocks rest + x.blocks < 4096
    · rw [if_pos hx]
      refine ⟨hread, hwritten, (fun hno => by cases hno), fun _ => ?_⟩
      exact ⟨batches, rest ++ [x], hbatched.add hx, (totalOf_concat _ _ _).symm, hreports⟩
    · rw [if_neg hx]
      have hclosed := hbatched.close (Nat.le_of_not_lt hx)
      refine ⟨hread, hwritten, (fun hno => by cases hno), fun _ => ?_⟩
      refine ⟨_, [], hclosed, rfl, ?_⟩
      have hr := hclosed.totalOf_batches Transfer.read
      have hw := hclosed.totalOf_batches Transfer.written
      rw [totalOf_nil, Nat.add_zero] at hr hw
      unfold formatWrapperReport reportsAfter
      simp only [hread, hwritten, uint64_mul, hr, hw, hreports]

/-- A request that moves no blocks leaves what the wrapper has noted. -/
theorem Accounted.unmoved {s : σ} (h : Accounted inner progress moved w) :
    Accounted inner progress moved { w with inner := s } :=
  ⟨h.read, h.written, h.silent, h.reported⟩

/-- The counter of the other direction stays. -/
theorem uint64_counter {n : ℕ} {moved : List Transfer} {weight : Transfer → ℕ}
    (h : n = uint64 (totalOf weight moved)) : uint64 (n + 0) = n := by
  rw [h, Nat.add_zero]
  exact Nat.mod_mod _ _

theorem Accounted.noteRead (h : Accounted inner progress moved w) (blockCount : ℕ) :
    Accounted inner progress (moved ++ [⟨blockCount, 0⟩]) (formatWrapperAccount inner progress
      blockCount { w with blocksRead := uint64 (w.blocksRead + blockCount) }) := by
  have hnext := h.account (x := ⟨blockCount, 0⟩)
  simp only [uint64_counter h.written] at hnext
  exact hnext

theorem Accounted.noteWritten (h : Accounted inner progress moved w) (blockCount : ℕ) :
    Accounted inner progress (moved ++ [⟨0, blockCount⟩]) (formatWrapperAccount inner progress
      blockCount { w with blocksWritten := uint64 (w.blocksWritten + blockCount) }) := by
  have hnext := h.account (x := ⟨0, blockCount⟩)
  simp only [uint64_counter h.read, Transfer.blocks, Nat.zero_add] at hnext
  exact hnext

/-- **One action.** -/
theorem Accounted.step (h : Accounted inner progress moved w)
    (hstep : Drives inner progress own w action w') :
    Accounted inner progress (moved ++ action.moved) w' := by
  cases action with
  | own =>
    obtain ⟨s, -, rfl⟩ := hstep
    rw [show (Action.own : Action β).moved = [] from rfl, List.append_nil]
    exact h.unmoved
  | asked request answer =>
    obtain ⟨rfl, rfl⟩ := hstep
    -- the counters change only when the transfer and the unlock have succeeded
    have hspec : wp (request.perform (formatWrapperInit inner progress))
        (fun _ w' => Accounted inner progress
          (moved ++ (Action.asked request (.ok ())).moved) w')
        (fun e w' => Accounted inner progress
          (moved ++ (Action.asked request (.error e)).moved) w') w := by
      cases request with
      | openDevice =>
        show wp (zoom innerLens inner.openDevice) _ _ w
        rw [wp_zoom]
        simp only [Action.moved, List.append_nil]
        exact wp_of_forall (fun _ s => h.unmoved) fun _ s => h.unmoved
      | closeDevice =>
        show wp (zoom innerLens inner.closeDevice) _ _ w
        rw [wp_zoom]
        simp only [Action.moved, List.append_nil]
        exact wp_of_forall (fun _ s => h.unmoved) fun _ s => h.unmoved
      | bread buffer blockId blockCount =>
        show wp (formatWrapperRead inner progress buffer blockId blockCount) _ _ w
        unfold formatWrapperRead
        rw [wp_bind, wp_zoom]
        simp only [Action.moved, List.append_nil]
        exact wp_of_forall (fun _ s => h.unmoved.noteRead blockCount) fun _ s => h.unmoved
      | bwrite buffer blockId blockCount =>
        show wp (formatWrapperWrite inner progress buffer blockId blockCount) _ _ w
        unfold formatWrapperWrite
        rw [wp_bind, wp_zoom]
        simp only [Action.moved, List.append_nil]
        exact wp_of_forall (fun _ s => h.unmoved.noteWritten blockCount) fun _ s => h.unmoved
    obtain ⟨hok, herr⟩ := wp_final.mp hspec
    cases hanswer : (request.perform (formatWrapperInit inner progress)).answer w with
    | ok a => exact hok a hanswer
    | error e => exact herr e hanswer

theorem Accounted.run {s : σ} (h : Machine.Run (Drives inner progress own) (Wrapper.start s) ls w) :
    Accounted inner progress (ls.flatMap Action.moved) w := by
  induction h with
  | start => exact .start inner progress s
  | next _ last ih =>
    rw [List.flatMap_append, List.flatMap_singleton]
    exact ih.step last

/-- **Progress follows the transfers.** In every run of requests of `ext4_mkfs` to the wrapper,
whatever fails in it: the transfers that succeeded, in order, are cut into batches that each
reach 4096 blocks with their last transfer, and a rest of fewer; `progress` was called once for
each batch, with the bytes read and written up to its end, and not for the rest. Without a
callback there are no calls. -/
theorem progress_follows_transfers (inner : Device σ β) (progress : Bool) (own : σ → σ → Prop)
    (s : σ) (w : Wrapper σ) (ls : List (Action β))
    (hrun : Machine.Run (Drives inner progress own) (Wrapper.start s) ls w) :
    (progress = true → ∃ batches rest,
      Batched 4096 Transfer.blocks (ls.flatMap Action.moved) batches rest ∧
        w.reports = reportsAfter inner.phBsize batches) ∧
    (progress = false → w.reports = []) := by
  have h := Accounted.run hrun
  refine ⟨fun hset => ?_, h.silent⟩
  obtain ⟨batches, rest, hbatched, -, hreports⟩ := h.reported hset
  exact ⟨batches, rest, hbatched, hreports⟩

/-! ## The lock -/

/-- The lock is held as often as before. -/
def Level (depth : σ → ℕ) (s s' : σ) : Prop := depth s' = depth s

instance (depth : σ → ℕ) : StepRel (Level depth) where
  refl _ := rfl
  trans h h' := Eq.trans h' h

/-- What the device's recursive lock is documented to do, `depth` being how often the task holds
it: a task that holds it can give it back. The device's other operations leave it alone. -/
structure LockLaws (inner : Device σ β) (depth : σ → ℕ) : Prop where
  both : inner.lock.isSome = inner.unlock.isSome
  lock : ∀ lock, inner.lock = some lock → ∀ s,
    wp lock (fun _ s' => depth s' = depth s + 1) (fun _ => Level depth s) s
  unlock : ∀ unlock, inner.unlock = some unlock → ∀ s, 0 < depth s →
    wp unlock (fun _ s' => depth s' + 1 = depth s) (fun _ _ => False) s
  keeps : ∀ (request : Request β) s, Keeps (Level depth) (request.perform inner) s

variable {depth : σ → ℕ} {op : Prog Empty Errno σ Unit} {s : σ}

/-- Once the lock is held, what follows the operation gives it back. -/
theorem LockLaws.given (hL : LockLaws inner depth) {unlock : Prog Empty Errno σ Unit} {s₁ : σ}
    (hunlock : inner.unlock = some unlock) (h : depth s₁ = depth s + 1) (rc : Except Errno Unit) :
    wp (do
      let unlockRc ← unlock.attempt
      firstError rc unlockRc : Prog Empty Errno σ Unit)
      (fun _ => Level depth s) (fun _ => Level depth s) s₁ := by
  rw [wp_bind, wp_attempt]
  refine wp_mono (hL.unlock unlock hunlock s₁ (by omega)) (fun _ s₂ h₂ => ?_) fun _ _ h => h.elim
  have hback : Level depth s s₂ := by
    unfold Level
    omega
  exact (Keeps.firstError rc (.ok ())).from_earlier hback

/-- An operation under the lock leaves the lock as it was, whatever fails. -/
theorem LockLaws.keeps_underLock (hL : LockLaws inner depth)
    (hop : ∀ s, Keeps (Level depth) op s) : Keeps (Level depth) (underLock inner op) s := by
  have hboth := hL.both
  unfold underLock
  cases hlock : inner.lock with
  | none =>
    have hnone : inner.unlock = none := by
      apply Option.not_isSome_iff_eq_none.mp
      rw [← hboth, hlock]
      exact Bool.noConfusion
    rw [hnone]
    exact Keeps.bind (hop s).attempt fun rc _ => Keeps.ofExcept rc
  | some lock =>
    rw [hlock] at hboth
    obtain ⟨unlock, hunlock⟩ := Option.isSome_iff_exists.mp hboth.symm
    unfold Keeps
    rw [hunlock, wp_bind]
    refine wp_mono (hL.lock lock hlock s) (fun _ s₁ h₁ => ?_) fun _ _ h => h
    have after (rc : Except Errno Unit) (s₂ : σ) (h : Level depth s₁ s₂) :=
      hL.given hunlock (Eq.trans h h₁) rc
    rw [wp_bind, wp_attempt]
    exact wp_mono (hop s₁) (fun _ s₂ h => after _ s₂ h) fun _ s₂ h => after _ s₂ h

/-- No request to the wrapper keeps the lock. -/
theorem LockLaws.keeps_request (hL : LockLaws inner depth) (request : Request β) :
    Keeps (Level fun w => depth w.inner) (request.perform (formatWrapperInit inner progress))
      w := by
  cases request with
  | openDevice => exact (wp_zoom innerLens _).mpr (hL.keeps .openDevice w.inner)
  | closeDevice => exact (wp_zoom innerLens _).mpr (hL.keeps .closeDevice w.inner)
  | bread buffer blockId blockCount =>
    exact wp_formatWrapperRead progress
      (hL.keeps_underLock fun s => hL.keeps (.bread buffer blockId blockCount) s)
  | bwrite buffer blockId blockCount =>
    exact wp_formatWrapperWrite progress
      (hL.keeps_underLock fun s => hL.keeps (.bwrite buffer blockId blockCount) s)

/-- `ext4_mkfs` gets at the device only through requests to the wrapper. -/
def DrivenBy (inner : Device σ β) (progress : Bool) (own : σ → σ → Prop) (mkfs : Mkfs σ) : Prop :=
  ∀ info featureSet s, ∃ ls w, Machine.Run (Drives inner progress own) (Wrapper.start s) ls w ∧
    (mkfs info featureSet).final s = w.inner

theorem LockLaws.run (hL : LockLaws inner depth) (hown : ∀ s s', own s s' → Level depth s s')
    (hrun : Machine.Run (Drives inner progress own) w ls w') : Level depth w.inner w'.inner := by
  have hall : ∀ action ∈ ls, True := fun _ _ => trivial
  refine hrun.keeps (I := fun w' => Level depth w.inner w'.inner) ?_ hall (StepRel.refl w.inner)
  intro w₁ w₂ action h₁ _ hstep
  cases action with
  | own =>
    obtain ⟨s, hs, rfl⟩ := hstep
    exact StepRel.trans h₁ (hown w₁.inner s hs)
  | asked request answer =>
    obtain ⟨-, rfl⟩ := hstep
    exact StepRel.trans h₁ (keeps_final.mp (hL.keeps_request request))

/-- **Formatting gives the lock back.** Whatever fails in it, and whatever `ext4_mkfs` asks of
the wrapper, `lwext4_port_format_blockdev` leaves the device's lock as it found it. -/
theorem formatting_gives_lock_back (build : Build) (inner : Device σ β) (progress : Bool)
    (own : σ → σ → Prop) (depth : σ → ℕ) (lock unlock : Prog Empty Errno σ Unit) (mkfs : Mkfs σ)
    (memory : Bool) (config : Config) (session : Session σ) (hlaws : LockLaws inner depth)
    (hlock : inner.lock = some lock) (hunlock : inner.unlock = some unlock)
    (hown : ∀ s s', own s s' → Level depth s s') (hmkfs : DrivenBy inner progress own mkfs) :
    depth ((lwext4PortFormatBlockdev build ⟨inner.partSize, lock, unlock⟩ mkfs memory
      config).final session).adapter = depth session.adapter := by
  suffices h : Keeps (Level fun session : Session σ => depth session.adapter)
      (lwext4PortFormatBlockdev build ⟨inner.partSize, lock, unlock⟩ mkfs memory config)
      session from keeps_final.mp h
  have hmkfs' (info : MkfsInfo) (featureSet : ℕ) (s : σ) :
      Keeps (Level depth) (mkfs info featureSet) s := by
    obtain ⟨ls, w, hrun, hfinal⟩ := hmkfs info featureSet s
    rw [keeps_final, hfinal]
    exact hlaws.run hown hrun
  unfold lwext4PortFormatBlockdev
  refine Keeps.ite (fun _ => Keeps.pure _) fun _ => ?_
  cases mkfsInfo build inner.partSize config with
  | error e => exact Keeps.pure _
  | ok info =>
    unfold Keeps
    rw [wp_bind, wp_attempt, wp_zoom]
    refine wp_mono (hlaws.lock lock hlock _) (fun _ s₁ h₁ => ?_) fun _ _ h => h
    rw [wp_bind, wp_update, wp_bind, wp_attempt, wp_zoom]
    have after (rc : Except Errno Unit) (session' : Session σ)
        (h : Level depth s₁ session'.adapter) :
        wp (do
          let unlockRc ← (zoom adapterLens unlock).attempt
          pure (formatResult rc unlockRc) : M σ EspErr)
          (fun _ => Level (fun session : Session σ => depth session.adapter) session)
          (fun _ => Level (fun session : Session σ => depth session.adapter) session) session' := by
      rw [wp_bind, wp_attempt, wp_zoom]
      have hheld : depth session'.adapter = depth session.adapter + 1 := Eq.trans h h₁
      refine wp_mono (hlaws.unlock unlock hunlock _ (hheld ▸ Nat.succ_pos _))
        (fun _ s₃ h₃ => ?_) fun _ _ h => h.elim
      have hback : depth s₃ + 1 = depth session.adapter + 1 := Eq.trans h₃ hheld
      exact Nat.succ.inj hback
    exact wp_mono (hmkfs' info _ s₁) (fun _ s₂ h => after _ _ h) fun _ s₂ h => after _ _ h

/-- The devices differ at most in what transfers do while the task does not hold the lock. -/
structure AgreeLocked (depth : σ → ℕ) (inner inner' : Device σ β) : Prop where
  phBsize : inner'.phBsize = inner.phBsize
  openDevice : inner'.openDevice = inner.openDevice
  closeDevice : inner'.closeDevice = inner.closeDevice
  lock : inner'.lock = inner.lock
  unlock : inner'.unlock = inner.unlock
  bread : ∀ buffer blockId blockCount s, 0 < depth s →
    inner'.bread buffer blockId blockCount s = inner.bread buffer blockId blockCount s
  bwrite : ∀ buffer blockId blockCount s, 0 < depth s →
    inner'.bwrite buffer blockId blockCount s = inner.bwrite buffer blockId blockCount s

theorem AgreeLocked.underLock_eq {inner' : Device σ β} (h : AgreeLocked depth inner inner')
    (hL : LockLaws inner depth) (hsome : inner.lock.isSome) {op op' : Prog Empty Errno σ Unit}
    (hop : ∀ s, 0 < depth s → op' s = op s) : underLock inner' op' = underLock inner op := by
  obtain ⟨lock, hlock⟩ := Option.isSome_iff_exists.mp hsome
  unfold underLock
  rw [h.lock, h.unlock, hlock]
  funext s
  apply bind_congr_at
  intro _ s₁ hrun
  have hheld := wp_ok (Q := fun _ s' => depth s' = depth s + 1) (hL.lock lock hlock s) hrun
  have hsame : op'.attempt s₁ = op.attempt s₁ := by
    unfold attempt
    rw [hop s₁ (hheld ▸ Nat.succ_pos _)]
  exact bind_congr_left hsame

/-- **Transfers are made under the lock.** What a device with a lock would do for a transfer
without it makes no difference to any run of requests to the wrapper. -/
theorem transfers_under_lock (inner inner' : Device σ β) (progress : Bool) (own : σ → σ → Prop)
    (depth : σ → ℕ) (w w' : Wrapper σ) (ls : List (Action β)) (hlaws : LockLaws inner depth)
    (hsome : inner.lock.isSome) (hagree : AgreeLocked depth inner inner') :
    Machine.Run (Drives inner' progress own) w ls w' ↔
      Machine.Run (Drives inner progress own) w ls w' := by
  have hperform (request : Request β) : request.perform (formatWrapperInit inner' progress) =
      request.perform (formatWrapperInit inner progress) := by
    have haccount : @formatWrapperAccount σ β inner' = formatWrapperAccount inner := by
      unfold formatWrapperAccount formatWrapperReport
      rw [hagree.phBsize]
    cases request with
    | openDevice => exact congrArg (zoom innerLens) hagree.openDevice
    | closeDevice => exact congrArg (zoom innerLens) hagree.closeDevice
    | bread buffer blockId blockCount =>
      show formatWrapperRead inner' progress _ _ _ = formatWrapperRead inner progress _ _ _
      unfold formatWrapperRead
      rw [haccount, hagree.underLock_eq hlaws hsome (hagree.bread buffer blockId blockCount)]
    | bwrite buffer blockId blockCount =>
      show formatWrapperWrite inner' progress _ _ _ = formatWrapperWrite inner progress _ _ _
      unfold formatWrapperWrite
      rw [haccount, hagree.underLock_eq hlaws hsome (hagree.bwrite buffer blockId blockCount)]
  have hdrives : Drives inner' progress own = Drives inner progress own := by
    funext w action w'
    cases action with
    | own => exact rfl
    | asked request answer =>
      show (_ ∧ _) = (_ ∧ _)
      rw [hperform]
  rw [hdrives]

end Runs

/-! ## A device with a lock and no blocks to speak of -/

namespace Counted

/-- The state is how often the lock is held. -/
def device : Device ℕ Unit where
  phBsize := 512
  phBcnt := 262144
  phBbuf := ()
  partOffset := 0
  partSize := 134217728
  openDevice := pure ()
  bread := fun _ _ _ => pure ()
  bwrite := fun _ _ _ s => if s = 0 then .err .eio s else .ok () s
  closeDevice := pure ()
  lock := some (update Nat.succ)
  unlock := some fun s => if s = 0 then .err .eio s else .ok () (s - 1)

/-- The same, with writes that go through without the lock. -/
def lax : Device ℕ Unit := { device with bwrite := fun _ _ _ => pure () }

theorem device_laws : LockLaws device id where
  both := rfl
  lock := by
    rintro lock ⟨⟩ s
    exact rfl
  unlock := by
    rintro unlock ⟨⟩ s hs
    have hheld : ¬ s = 0 := Nat.ne_of_gt hs
    unfold wp
    simp only [if_neg hheld]
    exact Nat.succ_pred_eq_of_pos hs
  keeps := by
    intro request s
    cases request with
    | openDevice => exact Keeps.pure ()
    | closeDevice => exact Keeps.pure ()
    | bread => exact Keeps.pure ()
    | bwrite buffer blockId blockCount =>
      unfold Keeps
      by_cases hs : s = 0
      · have hfails : device.bwrite buffer blockId blockCount s = .err .eio s := if_pos hs
        exact (wp_iff_of_err hfails).mpr rfl
      · have hdone : device.bwrite buffer blockId blockCount s = .ok () s := if_neg hs
        exact (wp_iff_of_ok hdone).mpr rfl

theorem lax_agrees : AgreeLocked id device lax where
  phBsize := rfl
  openDevice := rfl
  closeDevice := rfl
  lock := rfl
  unlock := rfl
  bread := fun _ _ _ _ _ => rfl
  bwrite := fun _ _ _ _ hs => (if_neg (Nat.ne_of_gt hs)).symm

/-- A read of 4000 blocks, one of 100, and a write that is left over. -/
def actions : List (Action Unit) :=
  [.asked (.bread () 0 4000) (.ok ()), .asked (.bread () 4000 100) (.ok ()),
    .asked (.bwrite () 0 5) (.ok ())]

def after : Wrapper ℕ where
  inner := 0
  blocksSinceProgress := 5
  blocksRead := 4100
  blocksWritten := 5
  reports := [(2099200, 0)]

theorem actions_run : Machine.Run (Drives device true fun _ _ => True) (Wrapper.start 0) actions
    after := by
  have h₁ : Drives device true (fun _ _ => True) (Wrapper.start 0)
      (.asked (.bread () 0 4000) (.ok ())) ⟨0, 4000, 4000, 0, []⟩ := ⟨rfl, rfl⟩
  have h₂ : Drives device true (fun _ _ => True) ⟨0, 4000, 4000, 0, []⟩
      (.asked (.bread () 4000 100) (.ok ())) ⟨0, 0, 4100, 0, [(2099200, 0)]⟩ := ⟨rfl, rfl⟩
  have h₃ : Drives device true (fun _ _ => True) ⟨0, 0, 4100, 0, [(2099200, 0)]⟩
      (.asked (.bwrite () 0 5) (.ok ())) after := ⟨rfl, rfl⟩
  exact .next (.next (.single h₁) h₂) h₃

theorem progress_follows_transfers_counted : ∃ batches rest,
    Batched 4096 Transfer.blocks (actions.flatMap Action.moved) batches rest ∧
      [(2099200, 0)] = reportsAfter 512 batches :=
  (progress_follows_transfers device true _ 0 after actions actions_run).1 rfl

theorem transfers_under_lock_counted :
    Machine.Run (Drives lax true fun _ _ => True) (Wrapper.start 0) actions after :=
  (transfers_under_lock device lax true _ id _ after actions device_laws rfl lax_agrees).mpr
    actions_run

/-- A formatter that writes one block. -/
def writeOne : Mkfs ℕ := fun _ _ =>
  within Wrapper.start Wrapper.inner (formatWrapperWrite device true () 0 1)

theorem writeOne_driven : DrivenBy device true Eq writeOne := by
  intro info featureSet s
  refine ⟨[.asked (.bwrite () 0 1) _], _, .single ⟨rfl, rfl⟩, ?_⟩
  exact final_within _ _ _ s

theorem formatting_gives_lock_back_counted : ((lwext4PortFormatBlockdev Disk128.build
    ⟨134217728, update Nat.succ, fun s => if s = 0 then .err .eio s else .ok () (s - 1)⟩ writeOne
    true Disk128.defaults).final ⟨0, []⟩).adapter = 0 :=
  formatting_gives_lock_back Disk128.build device true Eq id _ _ writeOne true Disk128.defaults
    ⟨0, []⟩ device_laws rfl rfl (fun _ _ h => h.symm) writeOne_driven

end Counted

end EspLwext4.Port.Format
