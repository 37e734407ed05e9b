import EspLwext4.Port.Bdl

/-!
# The saved result of the lower device

`lwext4_port_bdl_last_error` is documented as the most recent result of a lower
operation. Every transfer saves the result of each chunk, and a `sync` that the
lower device has saves its result too. A `sync` it does not have performs nothing
and still saves `ESP_OK`: exactly there an earlier failure is lost.
-/

namespace EspLwext4.Port.Bdl

open Prog Runs

variable {δ : Type} {t : Target δ} {adapter : Adapter δ} {s : St δ}

/-- The result of the most recent lower operation, `ESP_OK` when there was none. -/
def lastResult : List (LowerCall × EspErr) → EspErr
  | [] => .ok
  | (_, error) :: _ => error

/-- `lwext4_port_bdl_last_error` returns what its documentation says. -/
def Reported (s : St δ) : Prop := lwext4PortBdlLastError s = lastResult s.calls

instance : Decidable (Reported s) := inferInstanceAs (Decidable (_ = _))

/-! ## One operation -/

/-- Saving a result reports it when it is that of the most recent operation. -/
theorem wp_saveLowerResult {error : EspErr} (h : lastResult s.calls = error) :
    wp (saveLowerResult error) (fun _ => Reported) (fun _ => Reported) s := by
  unfold saveLowerResult
  rw [wp_bind, wp_update, wp_returnError]
  exact ⟨fun _ => h.symm, fun _ _ => h.symm⟩

theorem reported_returnError {error : EspErr} (h : Reported s) :
    wp (returnError error) (fun _ => Reported) (fun _ => Reported) s :=
  wp_returnError.mpr ⟨fun _ => h, fun _ _ => h⟩

theorem wp_lowerRead {read : ℕ → ℕ → δ → (EspErr × List UInt8) × δ} {address size : ℕ} :
    wp (lowerRead read address size) (fun error s' => lastResult s'.calls = error)
      (fun _ _ => False) s := rfl

theorem wp_lowerWrite {write : ℕ → List UInt8 → δ → EspErr × δ} {address size : ℕ} :
    wp (lowerWrite write address size) (fun error s' => lastResult s'.calls = error)
      (fun _ _ => False) s := rfl

/-- Copying between the buffers asks nothing of the lower device. -/
theorem wp_buffers {m : Prog Empty Errno Buffers Unit} (h : Reported s) :
    wp (zoom St.buffers m) (fun _ => Reported) (fun _ => Reported) s := by
  rw [wp_zoom]
  exact wp_of_forall (fun _ _ => h) fun _ _ => h

/-- Each chunk of a read saves the result of its own lower call. -/
theorem wp_readLoop {read : ℕ → ℕ → δ → (EspErr × List UInt8) × δ} {buffer : Buffer}
    {rounds blocksRemaining address done : ℕ} (h : Reported s) :
    wp (readLoop t adapter read buffer rounds blocksRemaining address done)
      (fun _ => Reported) (fun _ => Reported) s := by
  induction rounds generalizing s blocksRemaining address done with
  | zero => exact h
  | succ rounds ih =>
    unfold readLoop
    split
    · exact h
    · rw [wp_bind]
      apply wp_mono wp_lowerRead _ fun _ _ hf => hf.elim
      intro error s₁ h₁
      rw [wp_bind]
      apply wp_mono (wp_saveLowerResult h₁) _ fun _ _ he => he
      intro _ s₂ h₂
      rw [wp_bind, wp_whenever]
      constructor
      · intro _
        exact wp_mono (wp_buffers h₂) (fun _ _ h₃ => ih h₃) fun _ _ he => he
      · intro _
        exact ih h₂

theorem wp_writeLoop {write : ℕ → List UInt8 → δ → EspErr × δ} {buffer : Buffer}
    {rounds blocksRemaining address done : ℕ} (h : Reported s) :
    wp (writeLoop t adapter write buffer rounds blocksRemaining address done)
      (fun _ => Reported) (fun _ => Reported) s := by
  induction rounds generalizing s blocksRemaining address done with
  | zero => exact h
  | succ rounds ih =>
    have round {s₁ : St δ} :
        wp (do
          let error ← lowerWrite write address
            (t.sizeT (t.sizeT (min blocksRemaining adapter.transferBufferBlocks) *
              t.sizeT adapter.phBsize))
          saveLowerResult error
          writeLoop t adapter write buffer rounds
            (blocksRemaining - min blocksRemaining adapter.transferBufferBlocks)
            (uint64 (address +
              t.sizeT (t.sizeT (min blocksRemaining adapter.transferBufferBlocks) *
                t.sizeT adapter.phBsize)))
            (done + t.sizeT (t.sizeT (min blocksRemaining adapter.transferBufferBlocks) *
              t.sizeT adapter.phBsize)))
          (fun _ => Reported) (fun _ => Reported) s₁ := by
      rw [wp_bind]
      apply wp_mono wp_lowerWrite _ fun _ _ hf => hf.elim
      intro error s₂ h₂
      rw [wp_bind]
      exact wp_mono (wp_saveLowerResult h₂) (fun _ _ h₃ => ih h₃) fun _ _ he => he
    unfold writeLoop
    split
    · exact h
    · rw [wp_bind, wp_whenever]
      constructor
      · intro _
        exact wp_mono (wp_buffers h) (fun _ _ _ => round) fun _ _ he => he
      · intro _
        exact round

/-- A `sync` of the lower device saves its own result. -/
theorem wp_syncLower_of_sync (hs : adapter.lower.sync.isSome) :
    wp (syncLower adapter) (fun _ => Reported) (fun _ => Reported) s := by
  obtain ⟨sync, hsync⟩ := Option.isSome_iff_exists.mp hs
  unfold syncLower lowerSync
  rw [hsync]
  rfl

/-- Without one, `ESP_OK` is saved and nothing is performed. -/
theorem final_syncLower_of_none (hn : adapter.lower.sync = none) :
    (syncLower adapter).final s = { s with lastLowerError := .ok } := by
  unfold syncLower lowerSync
  rw [hn]
  rfl

theorem wp_bdlRead {buffer : Buffer} {blockId blockCount : ℕ} (h : Reported s) :
    wp (bdlRead t adapter buffer blockId blockCount) (fun _ => Reported) (fun _ => Reported) s := by
  unfold bdlRead
  cases adapter.lower.read with
  | none => exact h
  | some read =>
    rw [wp_bind, wp_failIf]
    refine ⟨fun _ => h, fun _ => ?_⟩
    cases validateIoRange t adapter blockId blockCount with
    | error e => exact h
    | ok address =>
      simp only [wp_ite, wp_bind, wp_failIf, wp_pure]
      exact ⟨fun _ => h, fun _ => ⟨fun _ => h, fun _ => wp_readLoop h⟩⟩

theorem wp_bdlWrite {buffer : Buffer} {blockId blockCount : ℕ} (h : Reported s) :
    wp (bdlWrite t adapter buffer blockId blockCount) (fun _ => Reported) (fun _ => Reported) s := by
  unfold bdlWrite
  simp only [wp_bind, wp_failIf]
  refine ⟨fun _ => h, fun _ => ⟨fun _ => h, fun _ => ?_⟩⟩
  cases adapter.lower.write with
  | none => exact h
  | some write =>
    cases validateIoRange t adapter blockId blockCount with
    | error e => exact h
    | ok address =>
      simp only [wp_ite, wp_bind, wp_failIf, wp_pure]
      refine ⟨fun _ => h, fun _ => ⟨fun _ => h, fun _ => ?_⟩⟩
      apply wp_mono (wp_writeLoop h) _ fun _ _ he => he
      intro _ s₁ h₁
      refine ⟨fun hs => ?_, fun _ => h₁⟩
      -- `sync_after_write` is only accepted of a device that has `sync`
      have hsome := adapter.sync_of_syncAfterWrite hs
      exact wp_mono (wp_syncLower_of_sync hsome) (fun _ _ h₂ => reported_returnError h₂) fun _ _ he => he

/-! ## Runs -/

/-- The operations of the adapter; a transfer brings the content of the caller's
buffer. -/
inductive Op where
  | read (buffer : Buffer) (memory : List UInt8) (blockId blockCount : ℕ)
  | write (buffer : Buffer) (memory : List UInt8) (blockId blockCount : ℕ)
  | close
  | sync

def exec (t : Target δ) (adapter : Adapter δ) (s : St δ) : Op → St δ
  | .read buffer memory blockId blockCount =>
    (bdlRead t adapter buffer blockId blockCount).final { s with buffer := memory }
  | .write buffer memory blockId blockCount =>
    (bdlWrite t adapter buffer blockId blockCount).final { s with buffer := memory }
  | .close => (bdlClose adapter).final s
  | .sync => (lwext4PortBdlSync t adapter).final s

/-- The operation reaches `sync_lower` without having written anything. -/
def Syncs (t : Target δ) (s : St δ) : Op → Prop
  | .read .. => False
  | .write .. => False
  | .close => True
  | .sync => (t.semaphoreTake s.device).1 = true

/-- The operation does not stand in for a missing `sync` while the most recent
lower operation has failed. -/
def KeepsFailure (t : Target δ) (adapter : Adapter δ) (s : St δ) (op : Op) : Prop :=
  adapter.lower.sync.isSome ∨ ¬ Syncs t s op ∨ lastResult s.calls = .ok

theorem final_bdlClose_of_none (hn : adapter.lower.sync = none) :
    (bdlClose adapter).final s = { s with lastLowerError := .ok } := by
  unfold bdlClose syncLower lowerSync
  rw [hn]
  rfl

theorem final_lwext4PortBdlSync_of_none (hn : adapter.lower.sync = none)
    (ht : (t.semaphoreTake s.device).1 = true) :
    (lwext4PortBdlSync t adapter).final s =
      { s with lastLowerError := .ok, device := (t.semaphoreTake s.device).2 } := by
  have hrun : lwext4PortBdlSync t adapter s =
      syncLower adapter { s with device := (t.semaphoreTake s.device).2 } := by
    unfold lwext4PortBdlSync
    simp [ht]
  have hfin := final_syncLower_of_none (s := { s with device := (t.semaphoreTake s.device).2 }) hn
  unfold final at hfin ⊢
  rw [hrun]
  exact hfin

theorem final_lwext4PortBdlSync_of_lock (ht : ¬ (t.semaphoreTake s.device).1 = true) :
    (lwext4PortBdlSync t adapter).final s = { s with device := (t.semaphoreTake s.device).2 } := by
  unfold final lwext4PortBdlSync
  simp [ht]

theorem reported_sync_of_sync (hs : adapter.lower.sync.isSome) (h : Reported s) :
    Reported ((lwext4PortBdlSync t adapter).final s) := by
  by_cases ht : (t.semaphoreTake s.device).1 = true
  · have hrun : lwext4PortBdlSync t adapter s =
        syncLower adapter { s with device := (t.semaphoreTake s.device).2 } := by
      unfold lwext4PortBdlSync
      simp [ht]
    have hfin := final_of_wp (s := { s with device := (t.semaphoreTake s.device).2 })
      (wp_syncLower_of_sync hs)
    unfold final at hfin ⊢
    rw [hrun]
    exact hfin
  · rw [final_lwext4PortBdlSync_of_lock ht]
    exact h

/-- **One step.** From a state that reports the last result, an operation reaches
one that does exactly when it does not clear a failure. -/
theorem reported_exec_iff (op : Op) (h : Reported s) :
    Reported (exec t adapter s op) ↔ KeepsFailure t adapter s op := by
  have ok_iff : (EspErr.ok = lastResult s.calls) ↔ lastResult s.calls = .ok := eq_comm
  cases op with
  | read buffer memory blockId blockCount =>
    refine ⟨fun _ => Or.inr (Or.inl id), fun _ => ?_⟩
    exact final_of_wp (wp_bdlRead (s := { s with buffer := memory }) h)
  | write buffer memory blockId blockCount =>
    refine ⟨fun _ => Or.inr (Or.inl id), fun _ => ?_⟩
    exact final_of_wp (wp_bdlWrite (s := { s with buffer := memory }) h)
  | close =>
    show Reported ((bdlClose adapter).final s) ↔ _
    cases hn : adapter.lower.sync with
    | none =>
      have hk : KeepsFailure t adapter s .close ↔ lastResult s.calls = .ok := by
        simp [KeepsFailure, Syncs, hn]
      rw [final_bdlClose_of_none hn]
      exact ok_iff.trans hk.symm
    | some sync =>
      have hs : adapter.lower.sync.isSome := by rw [hn]; rfl
      refine ⟨fun _ => Or.inl hs, fun _ => ?_⟩
      unfold bdlClose
      apply final_of_wp
      rw [wp_bind]
      exact wp_mono (wp_syncLower_of_sync hs) (fun _ _ h₁ => reported_returnError h₁) fun _ _ he => he
  | sync =>
    show Reported ((lwext4PortBdlSync t adapter).final s) ↔ _
    cases hn : adapter.lower.sync with
    | none =>
      by_cases ht : (t.semaphoreTake s.device).1 = true
      · have hk : KeepsFailure t adapter s .sync ↔ lastResult s.calls = .ok := by
          simp [KeepsFailure, Syncs, hn, ht]
        rw [final_lwext4PortBdlSync_of_none hn ht]
        exact ok_iff.trans hk.symm
      · rw [final_lwext4PortBdlSync_of_lock ht]
        refine ⟨fun _ => Or.inr (Or.inl ht), fun _ => h⟩
    | some sync =>
      have hs : adapter.lower.sync.isSome := by rw [hn]; rfl
      exact ⟨fun _ => Or.inl hs, fun _ => reported_sync_of_sync hs h⟩

/-- **The saved result over runs.** On every adapter and for every run from its
creation, `lwext4_port_bdl_last_error` is the most recent lower result in every
state reached, if and only if no `close` or `sync` of a device without a `sync`
operation comes while that result is a failure. -/
theorem last_error_reported_iff (t : Target δ) (adapter : Adapter δ) (device : δ)
    (transferBuffer buffer : List UInt8) (ops : List Op) :
    (∀ n, Reported (run (exec t adapter) (St.init device transferBuffer buffer) (ops.take n))) ↔
      Along (exec t adapter) (KeepsFailure t adapter) (St.init device transferBuffer buffer) ops := by
  suffices gen : ∀ s : St δ, Reported s →
      ((∀ n, Reported (run (exec t adapter) s (ops.take n))) ↔
        Along (exec t adapter) (KeepsFailure t adapter) s ops) from
    gen _ rfl
  induction ops with
  | nil =>
    intro s hs
    simp only [List.take_nil, run_nil, along_nil]
    exact ⟨fun _ => trivial, fun _ _ => hs⟩
  | cons op ops ih =>
    intro s hs
    rw [along_cons]
    constructor
    · intro h
      have h₁ : Reported (exec t adapter s op) := h 1
      exact ⟨(reported_exec_iff op hs).mp h₁, (ih _ h₁).mp fun n => h (n + 1)⟩
    · rintro ⟨hop, hops⟩ n
      have h₁ := (reported_exec_iff op hs).mpr hop
      cases n with
      | zero => exact hs
      | succ n => exact (ih _ h₁).mpr hops n

/-! ## A lost failure

A device of one block that cannot be read and has no `sync`. -/

def deadDevice : LowerDevice Unit where
  geometry := ⟨512, 512, 512⟩
  readOnly := false
  read := some fun _ _ d => ((.fail, []), d)
  write := some fun _ _ d => (.ok, d)
  sync := none

def deadConfig : Config where
  physicalBlockSize := 512
  transferBufferBlocks := 1
  bufferCaps := 4
  bufferAlignment := 4
  readOnly := false
  syncAfterWrite := false
  lowerDeviceSupportsRewrite := true

def target32 : Target Unit where
  sizeMax := 4294967295
  mallocCap8bit := 4
  semaphoreTake := fun d => (true, d)

def deadAdapter : Adapter Unit := adapterOf target32 deadDevice deadConfig (by decide)

/-- The read fails, `bdl_close` performs nothing, and `last_error` says `ESP_OK`. -/
theorem failure_lost_on_close :
    let s := run (exec target32 deadAdapter) (St.init () [] [])
      [.read .caller [0] 0 1, .close]
    lwext4PortBdlLastError s = .ok ∧ s.calls = [(.read 0 512, .fail)] ∧ ¬ Reported s := by
  decide

end EspLwext4.Port.Bdl
