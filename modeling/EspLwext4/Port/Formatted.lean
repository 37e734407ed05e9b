import EspLwext4.Port.Durability
import EspLwext4.Port.FormatWrapper

/-!
# What a format leaves on the medium

`ext4_mkfs` writes through the wrapper, the wrapper through the adapter, and the adapter is a
store. A request to the wrapper is one to the adapter between two turns of its lock, so what a
format has written is on the medium when it returns `ESP_OK`.
-/

namespace EspLwext4.Port.Format

open Prog
open Bdl (Target)

section Wrapped

variable {σ δ κ : Type}

/-- Nothing, or an operation of a device that is no transfer. -/
inductive Turn {β : Type} (device : Device σ β) (s : σ) : σ → Prop
  | rest : Turn device s s
  | lock {lock : Prog Empty Errno σ Unit} (h : device.lock = some lock) :
      Turn device s (lock.final s)
  | unlock {unlock : Prog Empty Errno σ Unit} (h : device.unlock = some unlock) :
      Turn device s (unlock.final s)
  | openDevice : Turn device s (device.openDevice.final s)
  | closeDevice : Turn device s (device.closeDevice.final s)

/-- A flush or a turn, which promises nothing. -/
def FlushOrTurn {β : Type} (device : Device σ β) (flush : σ → Bool → σ → Prop) (s : σ)
    (done : Bool) (s' : σ) : Prop :=
  flush s done s' ∨ done = false ∧ Turn device s s'

/-- The wrapper of an adapter. -/
def wrappedPort (device : Device σ Buffer) (progress : Bool) (port : Buffer → BlockPort σ κ)
    (buffer : Buffer) : BlockPort (Wrapper σ) κ where
  blockSize := (port buffer).blockSize
  blockTotal := (port buffer).blockTotal
  transferBufferBlocks := (port buffer).transferBufferBlocks
  transfer
    | .read => formatWrapperRead device progress buffer
    | .write => formatWrapperWrite device progress buffer
  content w := (port buffer).content w.inner
  memory w := (port buffer).memory w.inner
  bounce w := (port buffer).bounce w.inner
  Own := (port buffer).Own
  calls w := (port buffer).calls w.inner
  call := (port buffer).call
  Clean dir w := (port buffer).Clean dir w.inner
  Takes := (port buffer).Takes
  WordsFit := (port buffer).WordsFit
  FlushFailed e w := (port buffer).FlushFailed e w.inner

/-- A request of `ext4_mkfs` to the wrapper. -/
def Formats (device : Device σ Buffer) (progress : Bool) (port : Buffer → BlockPort σ κ)
    (dev : σ → δ) (bounceSize : ℕ) : Wrapper σ → Exchange → Wrapper σ → Prop :=
  Serve (wrappedPort device progress port) (fun w => dev w.inner) bounceSize
    (FlushOrTurn (formatWrapperInit device progress) fun _ _ _ => False)

/-- The wrapped device is the adapter, and turns of it keep the buffers. -/
structure Wraps (device : Device σ Buffer) (port : Buffer → BlockPort σ κ) : Prop where
  bread : ∀ buffer, device.bread buffer = (port buffer).transfer .read
  bwrite : ∀ buffer, device.bwrite buffer = (port buffer).transfer .write
  bounce : ∀ buffer s s', Turn device s s' → (port buffer).bounce s' = (port buffer).bounce s
  memory : ∀ buffer s s', Turn device s s' → (port buffer).memory s' = (port buffer).memory s

variable {device : Device σ Buffer} {progress : Bool} {port : Buffer → BlockPort σ κ}
  {dev : σ → δ} {bounceSize size : ℕ} {flush : σ → Bool → σ → Prop} {through : Bool}
  {view : δ → Store ℕ UInt8} {op : Prog Empty Errno σ Unit} {s s₁ s' : σ} {w w₁ w' : Wrapper σ}
  {x : Exchange}

/-- The unlock and the result. -/
theorem wp_unlocked (rc : Except Errno Unit) : wp (match device.unlock with
    | none => ofExcept rc
    | some unlock => do
      let unlockRc ← unlock.attempt
      firstError rc unlockRc : Prog Empty Errno σ Unit)
    (fun _ s' => rc = .ok () ∧ Turn device s s') (fun _ s' => Turn device s s') s := by
  cases hunlock : device.unlock with
  | none =>
    cases rc with
    | ok a => exact ⟨rfl, .rest⟩
    | error e => exact Turn.rest
  | some unlock =>
    simp only
    rw [wp_bind, wp_attempt]
    have after (unlockRc : Except Errno Unit) (s' : σ) (h : Turn device s s') :
        wp (firstError rc unlockRc : Prog Empty Errno σ Unit)
          (fun _ s' => rc = .ok () ∧ Turn device s s') (fun _ s' => Turn device s s') s' := by
      cases rc with
      | error e => exact h
      | ok a =>
        cases unlockRc with
        | ok b => exact ⟨rfl, h⟩
        | error e => exact h
    have hturn : Turn device s (unlock.final s) := .unlock hunlock
    exact wp_final.mpr ⟨fun a _ => after (.ok a) _ hturn, fun e _ => after (.error e) _ hturn⟩

/-- The operation between two turns, or a turn only when the lock cannot be taken. -/
theorem wp_underLock (device : Device σ Buffer) (op : Prog Empty Errno σ Unit) (s : σ) :
    wp (underLock device op)
    (fun _ s' => ∃ s₁ s₂, Turn device s s₁ ∧ op s₁ = .ok () s₂ ∧ Turn device s₂ s')
    (fun _ s' => Turn device s s' ∨
      ∃ s₁ s₂, Turn device s s₁ ∧ EndsIn op s₁ s₂ ∧ Turn device s₂ s') s := by
  have locked (s₁ : σ) (h₁ : Turn device s s₁) :
      wp (do
        let rc ← op.attempt
        match device.unlock with
        | none => ofExcept rc
        | some unlock => do
          let unlockRc ← unlock.attempt
          firstError rc unlockRc : Prog Empty Errno σ Unit)
        (fun _ s' => ∃ s₁ s₂, Turn device s s₁ ∧ op s₁ = .ok () s₂ ∧ Turn device s₂ s')
        (fun _ s' => Turn device s s' ∨
          ∃ s₁ s₂, Turn device s s₁ ∧ EndsIn op s₁ s₂ ∧ Turn device s₂ s') s₁ := by
    rw [wp_bind, wp_attempt]
    refine wp_mono (wp_remember (wp_trivial op s₁)) (fun _ s₂ h₂ => ?_) fun e s₂ h₂ => ?_
    · apply wp_mono (wp_unlocked (.ok ()))
      · exact fun _ s' h => ⟨s₁, s₂, h₁, h₂.1, h.2⟩
      · exact fun _ s' h => .inr ⟨s₁, s₂, h₁, .inl ⟨(), h₂.1⟩, h⟩
    · apply wp_mono (wp_unlocked (.error e))
      · intro _ s' h
        cases h.1
      · exact fun _ s' h => .inr ⟨s₁, s₂, h₁, .inr ⟨e, h₂.1⟩, h⟩
  unfold underLock
  cases hlock : device.lock with
  | none => exact locked s .rest
  | some lock =>
    simp only
    rw [wp_bind]
    have hturn : Turn device s (lock.final s) := .lock hlock
    exact wp_final.mpr ⟨fun _ _ => locked _ hturn, fun _ _ => .inl hturn⟩

/-! ## A request to the wrapper -/

/-- A turn is seen as a flush that promises nothing. -/
theorem Turn.step (h : Turn device s s') :
    Serve port dev bounceSize (FlushOrTurn device flush) s (.flush false) s' :=
  ⟨s, rfl, .inr ⟨rfl, h⟩⟩

/-- The request the adapter sees for one of the wrapper, between turns. -/
structure Beneath (device : Device σ Buffer) (port : Buffer → BlockPort σ κ) (dev : σ → δ)
    (bounceSize : ℕ) (flush : σ → Bool → σ → Prop) (s : σ) (x : Exchange) (s' : σ)
    (L : List Exchange) : Prop where
  run : Machine.Run (Serve port dev bounceSize (FlushOrTurn device flush)) s L s'
  spares : ∀ block count, x.Spares block count → ∀ y ∈ L, y.Spares block count
  acknowledged : ∀ block count data, x = .write block count data true →
    L = [.flush false, x, .flush false]

/-- Two turns around a request with the same blocks. -/
theorem Beneath.transfer {y : Exchange} {s₂ s₃ : σ} (hdev : dev s₁ = dev s)
    (h₁ : Turn device s₁ s₂) (hy : Serve port dev bounceSize (FlushOrTurn device flush) s₂ y s₃)
    (h₃ : Turn device s₃ s')
    (hspares : ∀ block count, x.Spares block count → y.Spares block count)
    (hack : ∀ block count data, x = .write block count data true → y = x) :
    Beneath device port dev bounceSize flush s x s' [.flush false, y, .flush false] where
  run := by
    have hfirst : Serve port dev bounceSize (FlushOrTurn device flush) s (.flush false) s₂ :=
      ⟨s₁, hdev, .inr ⟨rfl, h₁⟩⟩
    exact .next (.next (.single hfirst) hy) h₃.step
  spares := by
    intro block count hx z hz
    simp only [List.mem_cons, List.not_mem_nil, or_false] at hz
    rcases hz with rfl | rfl | rfl
    · exact trivial
    · exact hspares block count hx
    · exact trivial
  acknowledged := fun block count data h => by rw [hack block count data h]

/-- A turn alone. -/
theorem Beneath.turn (hdev : dev s₁ = dev s) (h : Turn device s₁ s')
    (hx : ∀ block count data, x ≠ .write block count data true) :
    Beneath device port dev bounceSize flush s x s' [.flush false] where
  run := .single ⟨s₁, hdev, .inr ⟨rfl, h⟩⟩
  spares := by
    intro block count _ y hy
    rw [List.mem_singleton.mp hy]
    exact trivial
  acknowledged := fun block count data h => absurd h (hx block count data)

/-- The buffers are ready behind a turn, too. -/
theorem Wraps.prepared (hW : Wraps device port) {buffer : Buffer} {count : ℕ}
    (hprep : Prepared (wrappedPort device progress port buffer) (fun w => dev w.inner) bounceSize
      w w₁ count) (h : Turn device w₁.inner s) :
    Prepared (port buffer) dev bounceSize s s count where
  device := rfl
  bounce := (congrArg List.length (hW.bounce buffer _ _ h)).trans hprep.bounce
  memory := by
    rw [hW.memory buffer _ _ h]
    exact hprep.memory

/-- However a transfer of the adapter ends, it is an answer of the adapter. -/
theorem serve_read (flush : σ → Bool → σ → Prop) {buffer : Buffer} {block count : ℕ} (hword : count < 4294967296)
    (hprep : Prepared (port buffer) dev bounceSize s s count)
    (h : EndsIn ((port buffer).transfer .read block count) s s') :
    ∃ result, Serve port dev bounceSize flush s (.read block count result) s' := by
  rcases h with ⟨_, hok⟩ | herr
  · exact ⟨_, hword, buffer, s, hprep, .inl ⟨hok, rfl⟩⟩
  · exact ⟨none, hword, buffer, s, hprep, .inr ⟨herr, rfl⟩⟩

theorem serve_write (flush : σ → Bool → σ → Prop) {buffer : Buffer} {block count : ℕ} {data : List UInt8}
    (hword : count < 4294967296) (hprep : Prepared (port buffer) dev bounceSize s s count)
    (hdata : data = slice ((port buffer).memory s) 0 (count * (port buffer).blockSize))
    (h : EndsIn ((port buffer).transfer .write block count) s s') :
    ∃ done, Serve port dev bounceSize flush s (.write block count data done) s' := by
  rcases h with ⟨_, hok⟩ | herr
  · exact ⟨true, hword, buffer, s, hprep, hdata, .inl ⟨hok, rfl⟩⟩
  · exact ⟨false, hword, buffer, s, hprep, hdata, .inr ⟨herr, rfl⟩⟩

theorem Wraps.beneath_read (hW : Wraps device port) {block count : ℕ}
    {result : Option (List UInt8)}
    (h : Formats device progress port dev bounceSize w (.read block count result) w') :
    ∃ L, Beneath device port dev bounceSize flush w.inner (.read block count result) w'.inner
      L := by
  obtain ⟨hword, buffer, w₁, hprep, hanswer⟩ := h
  have hspec := wp_formatWrapperRead progress
    (wp_underLock device (device.bread buffer block count) w₁.inner)
  have hends : Turn device w₁.inner w'.inner ∨ ∃ s₂ s₃, Turn device w₁.inner s₂ ∧
      EndsIn (device.bread buffer block count) s₂ s₃ ∧ Turn device s₃ w'.inner := by
    rcases hanswer with ⟨hok, -⟩ | ⟨⟨e, herr⟩, -⟩
    · obtain ⟨s₂, s₃, h₂, hrun, h₃⟩ := wp_ok hspec hok
      exact .inr ⟨s₂, s₃, h₂, .inl ⟨(), hrun⟩, h₃⟩
    · have hfailed := wp_err hspec herr
      exact hfailed
  rcases hends with hturn | ⟨s₂, s₃, h₂, hrun, h₃⟩
  · exact ⟨_, .turn hprep.device hturn fun _ _ _ h => by cases h⟩
  · rw [hW.bread] at hrun
    obtain ⟨result', hserve⟩ := serve_read (FlushOrTurn device flush) hword
      (hW.prepared hprep h₂) hrun
    exact ⟨_, .transfer hprep.device h₂ hserve h₃ (fun _ _ _ => trivial) fun _ _ _ h => by cases h⟩

/-- A write that the wrapper turns away the adapter may have acknowledged: the unlock can fail. -/
theorem Wraps.beneath_write (hW : Wraps device port) {block count : ℕ} {data : List UInt8}
    {acknowledged : Bool} (h : Formats device progress port dev bounceSize w
      (.write block count data acknowledged) w') :
    ∃ L, Beneath device port dev bounceSize flush w.inner (.write block count data acknowledged)
      w'.inner L := by
  obtain ⟨hword, buffer, w₁, hprep, hdata, hanswer⟩ := h
  have hspec := wp_formatWrapperWrite progress
    (wp_underLock device (device.bwrite buffer block count) w₁.inner)
  have hdata' {s : σ} (h : Turn device w₁.inner s) :
      data = slice ((port buffer).memory s) 0 (count * (port buffer).blockSize) := by
    rw [hW.memory buffer _ _ h]
    exact hdata
  rcases hanswer with ⟨hok, rfl⟩ | ⟨⟨e, herr⟩, rfl⟩
  · obtain ⟨s₂, s₃, h₂, hrun, h₃⟩ := wp_ok hspec hok
    rw [hW.bwrite] at hrun
    have hserve : Serve port dev bounceSize (FlushOrTurn device flush) s₂
        (.write block count data true) s₃ :=
      ⟨hword, buffer, s₂, hW.prepared hprep h₂, hdata' h₂, .inl ⟨hrun, rfl⟩⟩
    exact ⟨_, .transfer hprep.device h₂ hserve h₃ (fun _ _ h => h) fun _ _ _ _ => rfl⟩
  · rcases wp_err hspec herr with hturn | ⟨s₂, s₃, h₂, hrun, h₃⟩
    · exact ⟨_, .turn hprep.device hturn fun _ _ _ h => by cases h⟩
    · rw [hW.bwrite] at hrun
      obtain ⟨done, hserve⟩ := serve_write (FlushOrTurn device flush) hword
        (hW.prepared hprep h₂) (hdata' h₂) hrun
      exact ⟨_, .transfer hprep.device h₂ hserve h₃ (fun _ _ h => h) fun _ _ _ h => by cases h⟩

/-- The wrapper itself has no lock, and its other operations are those of the device. -/
theorem Turn.inner (h : Turn (formatWrapperInit device progress) w w') :
    Turn device w.inner w'.inner := by
  cases h with
  | rest => exact .rest
  | lock hlock => cases hlock
  | unlock hunlock => cases hunlock
  | openDevice =>
    show Turn device w.inner ((zoom innerLens device.openDevice).final w).inner
    rw [final_zoom]
    exact .openDevice
  | closeDevice =>
    show Turn device w.inner ((zoom innerLens device.closeDevice).final w).inner
    rw [final_zoom]
    exact .closeDevice

/-- **One request.** -/
theorem Wraps.beneath (hW : Wraps device port) (flush : σ → Bool → σ → Prop)
    (h : Formats device progress port dev bounceSize w x w') :
    ∃ L, Beneath device port dev bounceSize flush w.inner x w'.inner L := by
  cases x with
  | read block count result => exact hW.beneath_read h
  | write block count data acknowledged => exact hW.beneath_write h
  | flush done =>
    obtain ⟨w₁, hdev, hflush⟩ := h
    rcases hflush with hno | ⟨rfl, hturn⟩
    · exact hno.elim
    · exact ⟨_, .turn hdev hturn.inner fun _ _ _ h => by cases h⟩

variable {ls ls' : List Exchange} {block count : ℕ} {data : List UInt8}

/-- **A run of requests.** -/
theorem Wraps.run_beneath (hW : Wraps device port) (flush : σ → Bool → σ → Prop)
    (h : Machine.Run (Formats device progress port dev bounceSize) w ls w') :
    ∃ L, Machine.Run (Serve port dev bounceSize (FlushOrTurn device flush)) w.inner L w'.inner ∧
      ∀ block count, (∀ x ∈ ls, x.Spares block count) → ∀ y ∈ L, y.Spares block count := by
  induction h with
  | start => exact ⟨[], .start, fun _ _ _ y hy => absurd hy List.not_mem_nil⟩
  | next _ last ih =>
    obtain ⟨L, hrun, hspares⟩ := ih
    obtain ⟨L', hlast⟩ := hW.beneath flush last
    refine ⟨L ++ L', hrun.append hlast.run, fun block count hall y hy => ?_⟩
    have hcut := List.forall_mem_append.mp hall
    rcases List.mem_append.mp hy with hy | hy
    · exact hspares block count hcut.1 y hy
    · exact hlast.spares block count (hcut.2 _ (List.mem_singleton_self _)) y hy

/-- A write that was acknowledged to `ext4_mkfs` the adapter has acknowledged. -/
theorem Wraps.acknowledged_beneath (hW : Wraps device port)
    (flush : σ → Bool → σ → Prop)
    (h : Machine.Run (Formats device progress port dev bounceSize) w
      (ls ++ .write block count data true :: ls') w')
    (hspare : ∀ x ∈ ls', x.Spares block count) :
    ∃ L L', Machine.Run (Serve port dev bounceSize (FlushOrTurn device flush)) w.inner
      (L ++ .write block count data true :: L') w'.inner ∧ ∀ y ∈ L', y.Spares block count := by
  rw [← List.singleton_append] at h
  obtain ⟨w₁, hbefore, hrest⟩ := h.split
  obtain ⟨w₂, hwrite, hafter⟩ := hrest.split
  obtain ⟨L, hL, -⟩ := hW.run_beneath flush hbefore
  obtain ⟨L₁, hbeneath⟩ := hW.beneath flush hwrite.last_of_single
  obtain ⟨L', hL', hspares⟩ := hW.run_beneath flush hafter
  obtain rfl := hbeneath.acknowledged block count data rfl
  refine ⟨L ++ [.flush false], .flush false :: L', ?_, ?_⟩
  · have hall := (hL.append hbeneath.run).append hL'
    simp only [List.append_assoc, List.cons_append, List.nil_append] at hall ⊢
    exact hall
  · intro y hy
    rcases List.mem_cons.mp hy with rfl | hy
    · exact trivial
    · exact hspares block count hspare y hy

/-! ## A format -/

/-- `ext4_mkfs` with the requests it makes of the wrapper. -/
structure Formatter (device : Device σ Buffer) (progress : Bool) (port : Buffer → BlockPort σ κ)
    (dev : σ → δ) (bounceSize : ℕ) where
  mkfs : Mkfs σ
  requests : MkfsInfo → ℕ → σ → List Exchange
  drives : ∀ info featureSet s, ∃ w, Machine.Run (Formats device progress port dev bounceSize)
    (Wrapper.start s) (requests info featureSet s) w ∧ (mkfs info featureSet).final s = w.inner

theorem mkfsInfo_error {build : Build} {partSize : ℕ} {config : Config} {e : EspErr}
    (h : mkfsInfo build partSize config = .error e) : e ≠ .ok := by
  unfold mkfsInfo at h
  simp only at h
  split_ifs at h <;> cases h <;> decide

/-- A format that returns `ESP_OK` has run `ext4_mkfs` once, with success, between two turns. -/
theorem wp_formatBlockdev_turns (device : Device σ Buffer) {build : Build} {partSize : ℕ} {mkfs : Mkfs σ} {memory : Bool}
    {config : Config} {lock unlock : Prog Empty Errno σ Unit} {session : Session σ}
    (hlock : device.lock = some lock) (hunlock : device.unlock = some unlock) :
    wp (lwext4PortFormatBlockdev build ⟨partSize, lock, unlock⟩ mkfs memory config)
      (fun error session' => error = .ok → ∃ info featureSet s₁,
        Turn device session.adapter s₁ ∧ (mkfs info featureSet).answer s₁ = .ok () ∧
          Turn device ((mkfs info featureSet).final s₁) session'.adapter ∧
          session'.requests = info :: session.requests)
      (fun _ _ => True) session := by
  unfold lwext4PortFormatBlockdev
  rw [wp_ite]
  refine ⟨(fun _ h => by cases h), fun _ => ?_⟩
  cases hinfo : mkfsInfo build partSize config with
  | error e => exact fun h => absurd h (mkfsInfo_error hinfo)
  | ok info =>
    rw [wp_bind, wp_attempt, wp_zoom]
    have hturn : Turn device session.adapter (lock.final session.adapter) := .lock hlock
    refine wp_final.mpr ⟨fun _ _ => ?_, fun e _ h => ?_⟩
    · rw [wp_bind, wp_update, wp_bind, wp_attempt, wp_zoom]
      refine wp_final.mpr ⟨fun _ hanswer => ?_, fun _ hanswer => ?_⟩
      · rw [wp_bind, wp_attempt, wp_zoom]
        exact wp_final.mpr ⟨fun _ _ _ => ⟨info, _, _, hturn, hanswer, .unlock hunlock, rfl⟩,
          fun _ _ h => by cases h⟩
      · rw [wp_bind, wp_attempt]
        exact wp_of_forall (fun _ _ h => by cases h) fun _ _ h => by cases h
    · split at h
      · cases h
      · cases h

/-- What the adapter sees of a format, for a write that was acknowledged to `ext4_mkfs`. -/
theorem Formatter.acknowledged (f : Formatter device progress port dev bounceSize)
    (hW : Wraps device port) (flush : σ → Bool → σ → Prop) {info : MkfsInfo}
    {featureSet : ℕ} {s₀ : σ} (h₀ : Turn device s₀ s)
    (h' : Turn device ((f.mkfs info featureSet).final s) s')
    (hrequests : f.requests info featureSet s = ls ++ .write block count data true :: ls')
    (hspare : ∀ x ∈ ls', x.Spares block count) :
    ∃ L L', Machine.Run (Serve port dev bounceSize (FlushOrTurn device flush)) s₀
      (L ++ .write block count data true :: L') s' ∧ ∀ y ∈ L', y.Spares block count := by
  obtain ⟨w, hrun, hfinal⟩ := f.drives info featureSet s
  rw [hrequests] at hrun
  obtain ⟨L, L', hbeneath, hspares⟩ := hW.acknowledged_beneath flush hrun hspare
  rw [← hfinal] at hbeneath
  refine ⟨.flush false :: L, L' ++ [.flush false], ?_, ?_⟩
  · have hall := ((Machine.Run.single h₀.step).append hbeneath).append (.single h'.step)
    simp only [List.append_assoc, List.cons_append, List.nil_append] at hall ⊢
    exact hall
  · intro y hy
    rcases List.mem_append.mp hy with hy | hy
    · exact hspares y hy
    · rw [List.mem_singleton.mp hy]
      exact trivial

/-- With turns that write nothing the adapter is a store as before. -/
theorem sealed_orTurn (flush : σ → Bool → σ → Prop)
    (h : Sealed port dev bounceSize size flush through view)
    (hturn : ∀ s s', Turn device s s' → (view (dev s)).Outside ∅ (view (dev s'))) :
    Sealed port dev bounceSize size (FlushOrTurn device flush) through view :=
  { h with
    flush := by
      intro s done s' hflush
      rcases hflush with hflush | ⟨rfl, hno⟩
      · exact h.flush s done s' hflush
      · exact ⟨hturn s s' hno, fun h => by cases h⟩ }

end Wrapped

/-! ## The two adapters -/

section Adapters

variable {δ : Type}

/-- The device of a block-device adapter. -/
def bdlBlockdev (t : Target δ) (give : δ → Bool × δ) (adapter : Bdl.Adapter δ) :
    Device (Bdl.St δ) Buffer where
  phBsize := adapter.phBsize
  phBcnt := adapter.phBcnt
  phBbuf := .transfer
  partOffset := 0
  partSize := adapter.partSize
  openDevice := Bdl.bdlOpen adapter
  bread := Bdl.bdlRead t adapter
  bwrite := Bdl.bdlWrite t adapter
  closeDevice := Bdl.bdlClose adapter
  lock := some (zoom bdlDevice (takeLock t))
  unlock := some (zoom bdlDevice (giveLock give))

/-- The device of an SDMMC adapter. -/
def sdmmcBlockdev (t : Target δ) (give : δ → Bool × δ) (adapter : Sdmmc.Adapter δ) :
    Device (Sdmmc.St δ) Buffer where
  phBsize := adapter.phBsize
  phBcnt := adapter.phBcnt
  phBbuf := .transfer
  partOffset := 0
  partSize := adapter.partSize
  openDevice := Sdmmc.sdmmcOpen adapter
  bread := Sdmmc.sdmmcRead t adapter
  bwrite := Sdmmc.sdmmcWrite t adapter
  closeDevice := Sdmmc.sdmmcClose adapter
  lock := some (zoom sdmmcDevice (takeLock t))
  unlock := some (zoom sdmmcDevice (giveLock give))

variable {t : Target δ} {give : δ → Bool × δ} {content stable : δ → List UInt8}

theorem bdlClose_buffers (adapter : Bdl.Adapter δ) (s : Bdl.St δ) :
    ((Bdl.bdlClose adapter).final s).transferBuffer = s.transferBuffer ∧
      ((Bdl.bdlClose adapter).final s).buffer = s.buffer := by
  have hsync : wp (Bdl.syncLower adapter)
      (fun _ s' => s'.transferBuffer = s.transferBuffer ∧ s'.buffer = s.buffer)
      (fun _ _ => False) s := by
    unfold Bdl.syncLower Bdl.lowerSync
    cases adapter.lower.sync with
    | none => exact ⟨rfl, rfl⟩
    | some sync => exact ⟨rfl, rfl⟩
  apply final_of_wp (P := fun s' : Bdl.St δ =>
    s'.transferBuffer = s.transferBuffer ∧ s'.buffer = s.buffer)
  unfold Bdl.bdlClose
  rw [wp_bind]
  refine wp_mono hsync (fun error s' h => ?_) fun _ _ h => h.elim
  rw [wp_returnError]
  exact ⟨fun _ => h, fun _ _ => h⟩

theorem takeLock_final (t : Target δ) (d : δ) :
    (takeLock t).final d = (t.semaphoreTake d).2 := by
  rcases h : t.semaphoreTake d with ⟨taken, d'⟩
  unfold takeLock final
  simp only [h]
  cases taken <;> rfl

theorem giveLock_final (give : δ → Bool × δ) (d : δ) : (giveLock give).final d = (give d).2 := by
  rcases h : give d with ⟨given, d'⟩
  unfold giveLock final
  simp only [h]
  cases given <;> rfl

/-- Turns keep the buffers and write nothing. -/
theorem bdl_turn {adapter : Bdl.Adapter δ} {s s' : Bdl.St δ}
    (hm : Bdl.Medium t adapter.lower content stable)
    (hgive : ∀ d, (view content stable d).Outside ∅ (view content stable (give d).2))
    (h : Turn (bdlBlockdev t give adapter) s s') :
    s'.transferBuffer = s.transferBuffer ∧ s'.buffer = s.buffer ∧
      (view content stable s.device).Outside ∅ (view content stable s'.device) := by
  cases h with
  | rest => exact ⟨rfl, rfl, .refl _ _⟩
  | lock hlock =>
    cases hlock
    rw [final_zoom, takeLock_final]
    exact ⟨rfl, rfl, hm.take s.device⟩
  | unlock hunlock =>
    cases hunlock
    rw [final_zoom, giveLock_final]
    exact ⟨rfl, rfl, hgive s.device⟩
  | openDevice =>
    have hsame : (bdlBlockdev t give adapter).openDevice.final s = s := final_failIf _ _ s
    rw [hsame]
    exact ⟨rfl, rfl, .refl _ _⟩
  | closeDevice =>
    have hflush : Bdl.Flush t adapter s false ((Bdl.bdlClose adapter).final s) := by
      rcases endsIn_final (Bdl.bdlClose adapter) s with ⟨_, hok⟩ | ⟨e, herr⟩
      · exact .inr (.inl ⟨hok, fun h => by cases h⟩)
      · exact .inr (.inr ⟨e, herr, rfl⟩)
    obtain ⟨htransfer, hbuffer⟩ := bdlClose_buffers adapter s
    exact ⟨htransfer, hbuffer, (Bdl.flush_flushes hm hflush).1⟩

theorem bdl_wraps {adapter : Bdl.Adapter δ} (hm : Bdl.Medium t adapter.lower content stable)
    (hgive : ∀ d, (view content stable d).Outside ∅ (view content stable (give d).2)) :
    Wraps (bdlBlockdev t give adapter) (Bdl.port t content adapter) where
  bread _ := rfl
  bwrite _ := rfl
  bounce _ _ _ h := (bdl_turn hm hgive h).1
  memory buffer _ _ h := by
    cases buffer with
    | null => exact (bdl_turn hm hgive h).2.1
    | transfer => exact (bdl_turn hm hgive h).1
    | caller => exact (bdl_turn hm hgive h).2.1

theorem sdmmc_turn {adapter : Sdmmc.Adapter δ} {s s' : Sdmmc.St δ}
    (hm : Sdmmc.Medium t give adapter.card content)
    (h : Turn (sdmmcBlockdev t give adapter) s s') :
    s'.transferBuffer = s.transferBuffer ∧ s'.buffer = s.buffer ∧
      (view content content s.device).Outside ∅ (view content content s'.device) := by
  cases h with
  | rest => exact ⟨rfl, rfl, .refl _ _⟩
  | lock hlock =>
    cases hlock
    rw [final_zoom, takeLock_final]
    exact ⟨rfl, rfl, hm.take s.device⟩
  | unlock hunlock =>
    cases hunlock
    rw [final_zoom, giveLock_final]
    exact ⟨rfl, rfl, hm.give s.device⟩
  | openDevice =>
    have hsame : (sdmmcBlockdev t give adapter).openDevice.final s = s := final_failIf _ _ s
    rw [hsame]
    exact ⟨rfl, rfl, .refl _ _⟩
  | closeDevice =>
    have hsame : (sdmmcBlockdev t give adapter).closeDevice.final s = s := final_failIf _ _ s
    rw [hsame]
    exact ⟨rfl, rfl, .refl _ _⟩

theorem sdmmc_wraps {adapter : Sdmmc.Adapter δ}
    (hm : Sdmmc.Medium t give adapter.card content) :
    Wraps (sdmmcBlockdev t give adapter) (Sdmmc.port t content adapter) where
  bread _ := rfl
  bwrite _ := rfl
  bounce _ _ _ h := (sdmmc_turn hm h).1
  memory buffer _ _ h := by
    cases buffer with
    | null => exact (sdmmc_turn hm h).2.1
    | transfer => exact (sdmmc_turn hm h).1
    | caller => exact (sdmmc_turn hm h).2.1

/-- A sync in a session is a flush of the adapter. -/
theorem wp_bdlSync {adapter : Bdl.Adapter δ} {session : Session (Bdl.St δ)} :
    wp (bdlSync t adapter) (fun error session' => session'.requests = session.requests ∧
      ∀ done : Bool, (done = true → error = .ok ∧ adapter.lower.sync.isSome) →
        Bdl.Flush t adapter session.adapter done session'.adapter)
      (fun _ _ => True) session := by
  unfold bdlSync
  rw [wp_zoom]
  refine wp_mono (wp_remember (wp_trivial _ _)) (fun error s' h => ?_) fun _ _ _ => trivial
  exact ⟨rfl, fun done hdone => .inl ⟨error, .inl h.1, hdone⟩⟩

/-- **A format that returns `ESP_OK`** has synced, run `ext4_mkfs` with success between two turns
and synced again. -/
theorem wp_bdlFormat {build : Build} {mkfs : Mkfs (Bdl.St δ)} {memory : Bool}
    {adapter : Bdl.Adapter δ} {phRefctr : ℕ} {config : Config} {s : Bdl.St δ} :
    wp (lwext4PortBdlFormat build t give mkfs memory adapter phRefctr config)
      (fun error session' => error = .ok → ∃ info featureSet s₀ s₁ s₂,
        Bdl.Flush t adapter s false s₀ ∧ Turn (bdlBlockdev t give adapter) s₀ s₁ ∧
          (mkfs info featureSet).answer s₁ = .ok () ∧
          Turn (bdlBlockdev t give adapter) ((mkfs info featureSet).final s₁) s₂ ∧
          (adapter.lower.sync.isSome → Bdl.Flush t adapter s₂ true session'.adapter) ∧
          session'.requests = [info])
      (fun _ _ => True) ⟨s, []⟩ := by
  unfold lwext4PortBdlFormat
  rw [wp_ite]
  refine ⟨fun hno h => absurd h hno, fun _ => ?_⟩
  rw [wp_bind]
  refine wp_mono wp_bdlSync (fun error session₀ h₀ => ?_) fun _ _ _ => trivial
  rw [wp_ite]
  refine ⟨fun hno h => absurd h hno, fun _ => ?_⟩
  rw [wp_bind]
  refine wp_mono (wp_formatBlockdev_turns (bdlBlockdev t give adapter) rfl rfl)
    (fun error session₁ h₁ => ?_) fun _ _ _ => trivial
  rw [wp_ite]
  refine ⟨fun hno h => absurd h hno, fun hyes => ?_⟩
  obtain ⟨info, featureSet, s₁, hbefore, hanswer, hafter, hrequests⟩ := h₁ (not_not.mp hyes)
  refine wp_mono wp_bdlSync (fun error session' h' hok => ?_) fun _ _ _ => trivial
  refine ⟨info, featureSet, session₀.adapter, s₁, session₁.adapter,
    h₀.2 false (fun h => by cases h), hbefore, hanswer, hafter,
    fun hsync => h'.2 true fun _ => ⟨hok, hsync⟩, ?_⟩
  rw [h'.1, hrequests, h₀.1]

/-- A block-device adapter: what was written is on the medium. -/
theorem bdl_formatted {build : Build} {lower : Bdl.LowerDevice δ} {created : Bdl.Config}
    {allocated memory progress : Bool} {adapter : Bdl.Adapter δ} {phRefctr : ℕ} {config : Config}
    (hcreated : Bdl.Created t content lower created allocated adapter)
    (hm : Bdl.Medium t lower content stable)
    (hgive : ∀ d, (view content stable d).Outside ∅ (view content stable (give d).2))
    (f : Formatter (bdlBlockdev t give adapter) progress (Bdl.port t content adapter)
      Bdl.St.device adapter.transferBufferSize)
    {s : Bdl.St δ} {session' : Session (Bdl.St δ)}
    (hok : lwext4PortBdlFormat build t give f.mkfs memory adapter phRefctr config ⟨s, []⟩ =
      .ok .ok session') :
    ∃ info featureSet s₁, session'.requests = [info] ∧
      (f.mkfs info featureSet).answer s₁ = .ok () ∧
      ∀ ls block count data ls',
        f.requests info featureSet s₁ = ls ++ .write block count data true :: ls' →
        (∀ x ∈ ls', x.Spares block count) → lower.sync.isSome →
        slice (stable session'.adapter.device) (block * adapter.phBsize)
          (count * adapter.phBsize) = data := by
  obtain ⟨info, featureSet, s₀, s₁, s₂, hbefore, hlock, hanswer, hunlock, hafter, hrequests⟩ :=
    wp_ok wp_bdlFormat hok rfl
  refine ⟨info, featureSet, s₁, hrequests, hanswer,
    fun ls block count data ls' htrace hspare hsync => ?_⟩
  have hlower : adapter.lower = lower := hcreated.geared.1
  have hm' : Bdl.Medium t adapter.lower content stable := hlower ▸ hm
  have hsealed := sealed_orTurn (Bdl.Flush t adapter) (hcreated.sealed hm)
    fun s s' h => (bdl_turn hm' hgive h).2.2
  obtain ⟨L, L', hrun, hspares⟩ := f.acknowledged (bdl_wraps hm' hgive)
    (Bdl.Flush t adapter) hlock hunlock htrace hspare
  have hlast : Serve (Bdl.port t content adapter) Bdl.St.device adapter.transferBufferSize
      (FlushOrTurn (bdlBlockdev t give adapter) (Bdl.Flush t adapter)) s₂ (.flush true)
      session'.adapter := ⟨s₂, rfl, .inl (hafter (hlower ▸ hsync))⟩
  have hall := hrun.next hlast
  rw [List.append_assoc, List.cons_append] at hall
  refine hsealed.kept_slice (fun buffer s s' => ?_) hall
    (.inr (List.mem_append_right _ (List.mem_singleton_self _))) fun x hx => ?_
  · rw [hm.length]
    exact hcreated.laws.length s.device
  · rcases List.mem_append.mp hx with hx | hx
    · exact hspares x hx
    · rw [List.mem_singleton.mp hx]
      exact trivial

theorem wp_sdmmcFormat {build : Build} {mkfs : Mkfs (Sdmmc.St δ)} {memory : Bool}
    {adapter : Sdmmc.Adapter δ} {phRefctr : ℕ} {config : Config} {s : Sdmmc.St δ} :
    wp (lwext4PortSdmmcFormat build t give mkfs memory adapter phRefctr config)
      (fun error session' => error = .ok → ∃ info featureSet s₁,
        Turn (sdmmcBlockdev t give adapter) s s₁ ∧ (mkfs info featureSet).answer s₁ = .ok () ∧
          Turn (sdmmcBlockdev t give adapter) ((mkfs info featureSet).final s₁) session'.adapter ∧
          session'.requests = [info])
      (fun _ _ => True) ⟨s, []⟩ := by
  unfold lwext4PortSdmmcFormat
  rw [wp_ite]
  refine ⟨fun hno h => absurd h hno, fun _ => ?_⟩
  exact wp_formatBlockdev_turns (sdmmcBlockdev t give adapter) rfl rfl

/-- An SDMMC adapter: the card has it. -/
theorem sdmmc_formatted {build : Build} {card : Sdmmc.Card δ} {created : Sdmmc.Config}
    {allocated memory progress : Bool} {adapter : Sdmmc.Adapter δ} {phRefctr : ℕ} {config : Config}
    (hcreated : Sdmmc.Created t content card created allocated adapter)
    (hm : Sdmmc.Medium t give card content)
    (f : Formatter (sdmmcBlockdev t give adapter) progress (Sdmmc.port t content adapter)
      Sdmmc.St.device adapter.transferBufferSize) {s : Sdmmc.St δ}
    {session' : Session (Sdmmc.St δ)}
    (hok : lwext4PortSdmmcFormat build t give f.mkfs memory adapter phRefctr config ⟨s, []⟩ =
      .ok .ok session') :
    ∃ info featureSet s₁, session'.requests = [info] ∧
      (f.mkfs info featureSet).answer s₁ = .ok () ∧
      ∀ ls block count data ls',
        f.requests info featureSet s₁ = ls ++ .write block count data true :: ls' →
        (∀ x ∈ ls', x.Spares block count) →
        slice (content session'.adapter.device) (block * adapter.phBsize)
          (count * adapter.phBsize) = data := by
  obtain ⟨info, featureSet, s₁, hlock, hanswer, hunlock, hrequests⟩ := wp_ok wp_sdmmcFormat hok rfl
  refine ⟨info, featureSet, s₁, hrequests, hanswer, fun ls block count data ls' htrace hspare => ?_⟩
  have hcard : adapter.card = card := hcreated.geared.1
  have hm' : Sdmmc.Medium t give adapter.card content := hcard ▸ hm
  have hsealed := sealed_orTurn (Sdmmc.Flush t give adapter) (hcreated.sealed hm)
    fun s s' h => (sdmmc_turn hm' h).2.2
  obtain ⟨L, L', hrun, hspares⟩ := f.acknowledged (sdmmc_wraps hm')
    (Sdmmc.Flush t give adapter) hlock hunlock htrace hspare
  refine hsealed.kept_slice (fun buffer s s' => ?_) hrun (.inl rfl) hspares
  exact (hcreated.laws.length s.device).trans (hcreated.laws.length s'.device).symm

/-- **What a format has written is on the medium.** Let `ext4_mkfs` be any program that reaches
the device only by requests to the wrapper, and let anything fail in the run: when formatting
either adapter returns `ESP_OK`, `ext4_mkfs` was run once and succeeded; and every write that was
acknowledged to it and whose blocks it did not write again is on the medium as it was asked for,
on a block-device adapter if the lower device has a sync. -/
theorem formatted_writes_survive (build : Build) (t : Target δ) (give : δ → Bool × δ)
    (content stable : δ → List UInt8) (progress memory : Bool) (phRefctr : ℕ) (config : Config) :
    (∀ lower created allocated adapter
      (f : Formatter (bdlBlockdev t give adapter) progress (Bdl.port t content adapter)
        Bdl.St.device adapter.transferBufferSize) (s : Bdl.St δ) session',
      Bdl.Created t content lower created allocated adapter → Bdl.Medium t lower content stable →
      (∀ d, (view content stable d).Outside ∅ (view content stable (give d).2)) →
      lwext4PortBdlFormat build t give f.mkfs memory adapter phRefctr config ⟨s, []⟩ =
        .ok .ok session' →
      ∃ info featureSet s₁, session'.requests = [info] ∧
        (f.mkfs info featureSet).answer s₁ = .ok () ∧
        ∀ ls block count data ls',
          f.requests info featureSet s₁ = ls ++ .write block count data true :: ls' →
          (∀ x ∈ ls', x.Spares block count) → lower.sync.isSome →
          slice (stable session'.adapter.device) (block * adapter.phBsize)
            (count * adapter.phBsize) = data) ∧
    ∀ card created allocated adapter
      (f : Formatter (sdmmcBlockdev t give adapter) progress (Sdmmc.port t content adapter)
        Sdmmc.St.device adapter.transferBufferSize) (s : Sdmmc.St δ) session',
      Sdmmc.Created t content card created allocated adapter →
      Sdmmc.Medium t give card content →
      lwext4PortSdmmcFormat build t give f.mkfs memory adapter phRefctr config ⟨s, []⟩ =
        .ok .ok session' →
      ∃ info featureSet s₁, session'.requests = [info] ∧
        (f.mkfs info featureSet).answer s₁ = .ok () ∧
        ∀ ls block count data ls',
          f.requests info featureSet s₁ = ls ++ .write block count data true :: ls' →
          (∀ x ∈ ls', x.Spares block count) →
          slice (content session'.adapter.device) (block * adapter.phBsize)
            (count * adapter.phBsize) = data := by
  constructor
  · intro lower created allocated adapter f s session' hcreated hm hgive hok
    exact bdl_formatted hcreated hm hgive f hok
  · intro card created allocated adapter f s session' hcreated hm hok
    exact sdmmc_formatted hcreated hm f hok

end Adapters

/-! ## A disk of 1024 bytes

In blocks of two bytes, with a copy of what has reached the medium. The formatter writes one
block. -/

namespace Disk1024

abbrev Cells : Type := { bytes : List UInt8 // bytes.length = 1024 }

def put (address : ℕ) (data : List UInt8) (d : Cells) : EspErr × Cells :=
  if h : address + data.length ≤ 1024 then
    (.ok, ⟨overwrite d.1 address data, (length_overwrite (h.trans_eq d.2.symm)).trans d.2⟩)
  else (.fail, d)

theorem put_eq {address : ℕ} {data : List UInt8} (d : Cells) (h : address + data.length ≤ 1024) :
    (put address data d).2.1 = overwrite d.1 address data := by
  unfold put
  rw [dif_pos h]

def target : Target (Cells × Cells) where
  sizeMax := 4294967295
  mallocCap8bit := 4
  semaphoreTake := fun d => (true, d)

def give (d : Cells × Cells) : Bool × Cells × Cells := (true, d)

def lower : Bdl.LowerDevice (Cells × Cells) where
  geometry := ⟨1024, 1, 1⟩
  readOnly := false
  read := some fun address size d => ((.ok, slice d.1.1 address size), d)
  write := some fun address data d => ((put address data d.1).1, ((put address data d.1).2, d.2))
  sync := some fun d => (.ok, (d.1, d.1))

def adapter : Bdl.Adapter (Cells × Cells) :=
  Bdl.adapterOf target lower SmallDisk.bdlConfig (by decide)

theorem created : Bdl.Created target (fun d => d.1.1) lower SmallDisk.bdlConfig true adapter := by
  refine ⟨.inl rfl, ⟨by decide, by decide, by decide⟩, ⟨fun d => d.1.2, ?_, ?_, ?_⟩, rfl⟩
  · rintro read ⟨⟩ address size d bytes d' - hcall
    cases hcall
    exact ⟨rfl, rfl⟩
  · rintro write ⟨⟩ address data d d' hin hcall
    rw [← (Prod.mk.inj hcall).2]
    exact put_eq d.1 hin
  · rintro sync ⟨⟩ d
    rfl

theorem medium : Bdl.Medium target lower (fun d => d.1.1) (fun d => d.2.1) := by
  refine ⟨fun d => d.2.2, ?_, ?_, ?_, fun d => .refl _ _⟩
  · rintro read ⟨⟩ address size d
    exact .refl _ _
  · rintro write ⟨⟩ address data d hin i hi
    refine ⟨?_, .inl rfl⟩
    have hout : i < address ∨ address + data.length ≤ i :=
      (not_and_or.mp hi).imp Nat.lt_of_not_le Nat.le_of_not_lt
    show (put address data d.1).2.1.getD i 0 = d.1.1.getD i 0
    rw [put_eq d.1 hin, List.getD_eq_getElem?_getD, List.getD_eq_getElem?_getD,
      getElem?_overwrite_of_outside (hin.trans_eq d.1.2.symm) hout]
  · rintro sync ⟨⟩ d
    exact ⟨fun i _ => ⟨rfl, .inr rfl⟩, fun _ _ => rfl⟩

def formatter : Formatter (bdlBlockdev target give adapter) true
    (Bdl.port target (fun d => d.1.1) adapter) Bdl.St.device adapter.transferBufferSize where
  mkfs _ _ := within
    (fun s => Wrapper.start { s with transferBuffer := [0, 0, 0, 0], buffer := [9, 8] })
    Wrapper.inner (formatWrapperWrite (bdlBlockdev target give adapter) true .caller 1 1)
  requests _ _ _ := [.write 1 1 [9, 8] true]
  drives := by
    intro info featureSet s
    refine ⟨_, .single ⟨by decide, .caller,
      Wrapper.start { s with transferBuffer := [0, 0, 0, 0], buffer := [9, 8] },
      ⟨rfl, rfl, Nat.le_refl 2⟩, rfl, .inl ⟨rfl, rfl⟩⟩, rfl⟩

def blank : Cells := ⟨List.replicate 1024 0, List.length_replicate⟩

/-- Formatting the blank disk. -/
theorem formats : ∃ session', lwext4PortBdlFormat { Disk128.build with roundToFullGroups := false }
    target give formatter.mkfs true adapter 0 { Disk128.defaults with blockSize := 1024 }
    ⟨Bdl.St.init (blank, blank) [0, 0, 0, 0] [], []⟩ = .ok .ok session' := ⟨_, rfl⟩

theorem formatted_writes_survive_disk1024 : ∃ session',
    lwext4PortBdlFormat { Disk128.build with roundToFullGroups := false } target give
      formatter.mkfs true adapter 0 { Disk128.defaults with blockSize := 1024 }
      ⟨Bdl.St.init (blank, blank) [0, 0, 0, 0] [], []⟩ = .ok .ok session' ∧
    slice session'.adapter.device.2.1 2 2 = [9, 8] := by
  obtain ⟨session', hok⟩ := formats
  refine ⟨session', hok, ?_⟩
  obtain ⟨info, featureSet, s₁, -, -, hwritten⟩ := (formatted_writes_survive _ target give
    (fun d => d.1.1) (fun d => d.2.1) true true 0 _).1 lower SmallDisk.bdlConfig true adapter
    formatter _ session' created medium (fun _ => .refl _ _) hok
  exact hwritten [] 1 1 [9, 8] [] rfl (fun x hx => absurd hx List.not_mem_nil) rfl

end Disk1024

end EspLwext4.Port.Format
