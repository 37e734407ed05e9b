import EspLwext4.Lib.Durable
import EspLwext4.Port.SdmmcTransfers

/-!
# The adapters as stores of bytes

A caller of a block-device adapter sees requests and their answers. Over any run of requests,
between which the caller does what it likes with its buffers, an adapter is a store of bytes: a
read returns what was written last, and what was written and flushed survives a loss of power.
Both follow from what one request does.
-/

namespace EspLwext4.Port

open Prog Runs
open Bdl (Target)

/-- The positions of the bytes of `count` blocks from `block`. -/
def bytesOf (size block count : ℕ) : Set ℕ := {i | block * size ≤ i ∧ i < (block + count) * size}

/-- A request and its answer. -/
inductive Exchange where
  /-- the bytes, when it succeeded -/
  | read (block count : ℕ) (result : Option (List UInt8))
  | write (block count : ℕ) (data : List UInt8) (acknowledged : Bool)
  | flush (done : Bool)

/-- No block of the range is written, by a failing request either. -/
def Exchange.Spares (block count : ℕ) : Exchange → Prop
  | .write b n _ _ => b + n ≤ block ∨ block + count ≤ b
  | _ => True

/-- What a request does to the store. With `through`, a write is flushed before it is
acknowledged, unless there was nothing to write. -/
def Exchange.events (size : ℕ) (through : Bool) :
    Exchange → List (Store.Event ℕ UInt8)
  | .write block count data true =>
      if count = 0 then [.looked]
      else .wrote (bytesOf size block count) (fun i => data.getD (i - block * size) 0) ::
        (if through then [.flushed] else [])
  | .write block count _ false => [.tried (bytesOf size block count)]
  | .flush true => [.flushed]
  | _ => [.looked]

theorem Exchange.not_touched {size block count i : ℕ} {through : Bool} {x : Exchange}
    (h : x.Spares block count) (hi : i ∈ bytesOf size block count) :
    ∀ e ∈ x.events size through, i ∉ e.touched := by
  have apart {b n : ℕ} (hb : b + n ≤ block ∨ block + count ≤ b) : i ∉ bytesOf size b n := by
    rintro ⟨hlo, hhi⟩
    obtain ⟨hlo', hhi'⟩ := hi
    rcases hb with hb | hb
    · have := Nat.mul_le_mul_right size hb
      omega
    · have := Nat.mul_le_mul_right size hb
      omega
  cases x with
  | read b n result => simp [events, Store.Event.touched]
  | flush done => cases done <;> simp [events, Store.Event.touched]
  | write b n data acknowledged =>
    cases acknowledged with
    | false => simpa [events, Store.Event.touched] using apart h
    | true =>
      by_cases hn : n = 0
      · simp [events, hn, Store.Event.touched]
      · cases through <;> simpa [events, hn, Store.Event.touched] using apart h

/-! ## Runs of requests -/

section Runs

variable {σ δ κ : Type}

/-- The caller may have used its buffers since `s`, the transfer buffer included. -/
structure Prepared (port : BlockPort σ κ) (device : σ → δ) (bounceSize : ℕ) (s s₁ : σ)
    (count : ℕ) : Prop where
  device : device s₁ = device s
  bounce : (port.bounce s₁).length = bounceSize
  memory : count * port.blockSize ≤ (port.memory s₁).length

/-- One request to an adapter, with any buffer. -/
def Serve (port : Buffer → BlockPort σ κ) (device : σ → δ) (bounceSize : ℕ)
    (flush : σ → Bool → σ → Prop) (s : σ) : Exchange → σ → Prop
  | .read block count result, s' => count < 4294967296 ∧ ∃ buffer s₁,
      Prepared (port buffer) device bounceSize s s₁ count ∧
        ((port buffer).transfer .read block count s₁ = .ok () s' ∧
            result = some (slice ((port buffer).memory s') 0 (count * (port buffer).blockSize)) ∨
          (∃ e, (port buffer).transfer .read block count s₁ = .err e s') ∧ result = none)
  | .write block count data acknowledged, s' => count < 4294967296 ∧ ∃ buffer s₁,
      Prepared (port buffer) device bounceSize s s₁ count ∧
        data = slice ((port buffer).memory s₁) 0 (count * (port buffer).blockSize) ∧
        ((port buffer).transfer .write block count s₁ = .ok () s' ∧ acknowledged = true ∨
          (∃ e, (port buffer).transfer .write block count s₁ = .err e s') ∧ acknowledged = false)
  | .flush done, s' => ∃ s₁, device s₁ = device s ∧ flush s₁ done s'

/-- What one request of an adapter has to do for the adapter to be a store. -/
structure Sealed (port : Buffer → BlockPort σ κ) (device : σ → δ) (bounceSize size : ℕ)
    (flush : σ → Bool → σ → Prop) (through : Bool) (view : δ → Store ℕ UInt8) : Prop where
  blockSize : ∀ buffer, (port buffer).blockSize = size
  content : ∀ buffer s i, ((port buffer).content s).getD i 0 = (view (device s)).now i
  room : ∀ buffer s dir block count, (port buffer).InRange block count →
    (port buffer).Takes dir block count → (block + count) * size ≤ ((port buffer).content s).length
  exact : ∀ buffer s block count, 0 < count → count < 4294967296 →
    ((port buffer).bounce s).length = bounceSize → (port buffer).Exact s block count
  read : ∀ buffer s block count, count < 4294967296 →
    Keeps (fun s s' => (view (device s)).Outside ∅ (view (device s')))
      ((port buffer).transfer .read block count) s
  write : ∀ buffer s block count, count < 4294967296 →
    Keeps (fun s s' => (view (device s)).Outside (bytesOf size block count) (view (device s')))
      ((port buffer).transfer .write block count) s
  through : through = true → ∀ buffer s block count s', 0 < count → count < 4294967296 →
    (port buffer).transfer .write block count s = .ok () s' →
    ∀ i, (view (device s')).kept i = (view (device s')).now i
  flush : ∀ s done s', flush s done s' → (view (device s)).Outside ∅ (view (device s')) ∧
    (done = true → ∀ i, (view (device s')).kept i = (view (device s')).now i)

end Runs

/-! ## A request that succeeds -/

namespace BlockPort

variable {σ κ : Type} {p : BlockPort σ κ} {s s' : σ} {block count : ℕ} {dir : Direction}

/-- A request that succeeds is inside the device and has moved its bytes. -/
theorem Exact.moved (h : p.Exact s block count)
    (hmem : count * p.blockSize ≤ (p.memory s).length)
    (hok : p.transfer dir block count s = .ok () s') :
    p.InRange block count ∧ p.Takes dir block count ∧ p.Moved block (block + count) s s' dir := by
  have hin : p.InRange block count := by
    by_contra hout
    obtain ⟨e, herr⟩ := h.outside hout dir
    rw [hok] at herr
    cases herr
  have htakes : p.Takes dir block count := by
    by_contra hno
    obtain ⟨e, herr⟩ := h.refused dir hno
    rw [hok] at herr
    cases herr
  obtain ⟨-, hwp⟩ := h.inside hin hmem dir htakes
  obtain ⟨pieces, hdone⟩ := wp_ok hwp hok
  exact ⟨hin, htakes, hdone.moved⟩

end BlockPort

/-! ## A store of bytes -/

section Sealed

variable {σ δ κ : Type} {port : Buffer → BlockPort σ κ} {device : σ → δ}
  {bounceSize size : ℕ} {flush : σ → Bool → σ → Prop} {through : Bool} {view : δ → Store ℕ UInt8}
  {s s' : σ}

@[simp] theorem bytesOf_zero {size block : ℕ} : bytesOf size block 0 = ∅ := by
  ext i
  simp [bytesOf]

/-- The bytes of a read. -/
theorem Sealed.read_ok (h : Sealed port device bounceSize size flush through view)
    {buffer : Buffer} {block count : ℕ} {s₁ : σ}
    (hprep : Prepared (port buffer) device bounceSize s s₁ count) (hword : count < 4294967296)
    (hok : (port buffer).transfer .read block count s₁ = .ok () s') {i : ℕ}
    (hi : i < count * size) :
    (slice ((port buffer).memory s') 0 (count * size))[i]? =
      some ((view (device s)).now (block * size + i)) := by
  have h0 : 0 < count := by
    rcases Nat.eq_zero_or_pos count with rfl | h0
    · omega
    · exact h0
  have hmem := hprep.memory
  obtain ⟨hin, htakes, -, hmoved⟩ :=
    (h.exact buffer s₁ block count h0 hword hprep.bounce).moved hmem hok
  rw [h.blockSize] at hmem hmoved
  rw [Nat.add_sub_cancel_left] at hmoved
  have hroom := h.room buffer s₁ _ block count hin htakes
  have hsplit : (block + count) * size = block * size + count * size := Nat.add_mul _ _ _
  have hlen : (slice ((port buffer).content s₁) (block * size) (count * size)).length =
      count * size := length_slice (by omega)
  have hback : slice ((port buffer).memory s') 0 (count * size) =
      slice ((port buffer).content s₁) (block * size) (count * size) := by
    rw [hmoved]
    conv => lhs; arg 3; rw [← hlen]
    exact slice_overwrite_zero
  rw [hback, ← hprep.device, ← h.content buffer s₁, getElem?_slice hi, List.getD_eq_getElem?_getD,
    List.getElem?_eq_getElem (by omega)]
  rfl

/-- The bytes of a write. -/
theorem Sealed.write_ok (h : Sealed port device bounceSize size flush through view)
    {buffer : Buffer} {block count : ℕ} {s₁ : σ} {data : List UInt8}
    (hprep : Prepared (port buffer) device bounceSize s s₁ count) (hword : count < 4294967296)
    (hdata : data = slice ((port buffer).memory s₁) 0 (count * (port buffer).blockSize))
    (h0 : 0 < count) (hok : (port buffer).transfer .write block count s₁ = .ok () s') :
    ∀ i ∈ bytesOf size block count, (view (device s')).now i = data.getD (i - block * size) 0 := by
  rintro i ⟨hlo, hhi⟩
  have hmem := hprep.memory
  obtain ⟨hin, htakes, -, hmoved⟩ :=
    (h.exact buffer s₁ block count h0 hword hprep.bounce).moved hmem hok
  rw [h.blockSize] at hmem hmoved hdata
  rw [Nat.add_sub_cancel_left, ← hdata] at hmoved
  have hroom := h.room buffer s₁ _ block count hin htakes
  have hsplit : (block + count) * size = block * size + count * size := Nat.add_mul _ _ _
  have hlen : data.length = count * size := by
    rw [hdata]
    exact length_slice (by omega)
  rw [← h.content buffer s', hmoved, List.getD_eq_getElem?_getD, List.getD_eq_getElem?_getD]
  obtain ⟨j, rfl⟩ := Nat.exists_eq_add_of_le hlo
  rw [getElem?_overwrite_of_inside (by omega) (by omega), Nat.add_sub_cancel_left]

/-- **One request.** -/
theorem Sealed.events (h : Sealed port device bounceSize size flush through view) {x : Exchange}
    (hstep : Serve port device bounceSize flush s x s') :
    Machine.Run Store.Step (view (device s)) (x.events size through) (view (device s')) := by
  cases x with
  | read block count result =>
    obtain ⟨hword, buffer, s₁, hprep, hrun⟩ := hstep
    have hkeeps := h.read buffer s₁ block count hword
    rw [← hprep.device]
    refine .single ⟨?_, trivial⟩
    rcases hrun with ⟨hok, -⟩ | ⟨⟨e, herr⟩, -⟩
    · exact hkeeps.ok hok
    · exact hkeeps.err herr
  | write block count data acknowledged =>
    obtain ⟨hword, buffer, s₁, hprep, hdata, hrun⟩ := hstep
    have hkeeps := h.write buffer s₁ block count hword
    rw [← hprep.device]
    rcases hrun with ⟨hok, rfl⟩ | ⟨⟨e, herr⟩, rfl⟩
    · have hout := hkeeps.ok hok
      by_cases h0 : count = 0
      · simp only [Exchange.events, if_pos h0]
        rw [h0, bytesOf_zero] at hout
        exact .single ⟨hout, trivial⟩
      · simp only [Exchange.events, if_neg h0]
        have hpos := Nat.pos_of_ne_zero h0
        have hdone := h.write_ok hprep hword hdata hpos hok
        have hwrote : Machine.Run Store.Step (view (device s₁)) [.wrote (bytesOf size block count)
            fun i => data.getD (i - block * size) 0] (view (device s')) := .single ⟨hout, hdone⟩
        cases through with
        | false => exact hwrote
        | true =>
          exact hwrote.next ⟨.refl _ _, h.through rfl buffer s₁ block count s' hpos hword hok⟩
    · exact .single ⟨hkeeps.err herr, trivial⟩
  | flush done =>
    obtain ⟨s₁, hdevice, hflush⟩ := hstep
    obtain ⟨hout, hdone⟩ := h.flush s₁ done s' hflush
    rw [← hdevice]
    cases done with
    | false => exact .single ⟨hout, trivial⟩
    | true => exact .single ⟨hout, hdone rfl⟩

variable {ls ls' : List Exchange} {block count : ℕ} {data : List UInt8}

theorem Sealed.run (h : Sealed port device bounceSize size flush through view)
    (hrun : Machine.Run (Serve port device bounceSize flush) s ls s') :
    Machine.Run Store.Step (view (device s)) (ls.flatMap (Exchange.events size through))
      (view (device s')) :=
  hrun.unfolded (f := fun s => view (device s)) h.events

theorem not_touched_of_spares {i : ℕ} (hspare : ∀ x ∈ ls', x.Spares block count)
    (hi : i ∈ bytesOf size block count) :
    ∀ e ∈ ls'.flatMap (Exchange.events size through), i ∉ e.touched := by
  intro e he
  obtain ⟨x, hx, he⟩ := List.mem_flatMap.mp he
  exact Exchange.not_touched (hspare x hx) hi e he

/-- What was written last is what the store has. -/
theorem Sealed.now_of_write (h : Sealed port device bounceSize size flush through view) {i : ℕ}
    (hrun : Machine.Run (Serve port device bounceSize flush) s
      (ls ++ .write block count data true :: ls') s')
    (hi : i ∈ bytesOf size block count)
    (hspare : ∀ x ∈ ls', ∀ e ∈ x.events size through, i ∉ e.touched) :
    (view (device s')).now i = data.getD (i - block * size) 0 := by
  have hall := h.run hrun
  have h0 : count ≠ 0 := by
    rintro rfl
    simp at hi
  rw [List.flatMap_append, List.flatMap_cons] at hall
  simp only [Exchange.events, if_neg h0, List.cons_append] at hall
  refine Store.now_of_wrote hall hi fun e he => ?_
  rcases List.mem_append.mp he with he | he
  · cases through with
    | false => cases he
    | true =>
      rw [List.mem_singleton.mp he]
      exact id
  · obtain ⟨x, hx, he⟩ := List.mem_flatMap.mp he
    exact hspare x hx e he

/-- **Acknowledged writes survive** a loss of power, once flushed and until they are written
again. -/
theorem Sealed.kept_of_write (h : Sealed port device bounceSize size flush through view)
    (hrun : Machine.Run (Serve port device bounceSize flush) s
      (ls ++ .write block count data true :: ls') s')
    (hflush : through = true ∨ .flush true ∈ ls') (hspare : ∀ x ∈ ls', x.Spares block count)
    {i : ℕ} (hi : i ∈ bytesOf size block count) :
    (view (device s')).kept i = data.getD (i - block * size) 0 := by
  rw [← h.now_of_write hrun hi fun x hx => Exchange.not_touched (hspare x hx) hi]
  have hall := h.run hrun
  have h0 : count ≠ 0 := by
    rintro rfl
    simp at hi
  rcases hflush with rfl | hmem
  · rw [List.flatMap_append, List.flatMap_cons] at hall
    simp only [Exchange.events, if_neg h0, if_true, List.cons_append, List.nil_append] at hall
    rw [← List.singleton_append, ← List.append_assoc] at hall
    exact Store.kept_of_flushed hall (not_touched_of_spares hspare hi)
  · obtain ⟨before, after, rfl⟩ := List.append_of_mem hmem
    rw [← List.cons_append, ← List.append_assoc, List.flatMap_append, List.flatMap_cons] at hall
    exact Store.kept_of_flushed hall (not_touched_of_spares
      (fun x hx => hspare x (List.mem_append_right _ (List.mem_cons_of_mem _ hx))) hi)

/-- A write that was acknowledged had the bytes of its blocks, inside the device. -/
theorem Sealed.write_shape (h : Sealed port device bounceSize size flush through view)
    (hrun : Machine.Run (Serve port device bounceSize flush) s
      (ls ++ .write block count data true :: ls') s') :
    data.length = count * size ∧ (0 < count → ∃ buffer s₁,
      (block + count) * size ≤ ((port buffer).content s₁).length) := by
  rw [← List.singleton_append, ← List.append_assoc] at hrun
  obtain ⟨s₂, hfirst, -⟩ := hrun.split
  obtain ⟨s₀, -, hwrite⟩ := hfirst.split
  obtain ⟨hword, buffer, s₁, hprep, hdata, hanswer⟩ := hwrite.last_of_single
  have hmem := hprep.memory
  rcases hanswer with ⟨hok, -⟩ | ⟨-, hno⟩
  · refine ⟨?_, fun h0 => ?_⟩
    · rw [hdata, h.blockSize]
      rw [h.blockSize] at hmem
      exact length_slice (by omega)
    · obtain ⟨hin, ht, -⟩ := (h.exact buffer s₁ block count h0 hword hprep.bounce).moved hmem hok
      exact ⟨buffer, s₁, h.room buffer s₁ _ block count hin ht⟩
  · cases hno

/-- **A read returns what was written last.** -/
theorem Sealed.read_back (h : Sealed port device bounceSize size flush through view)
    {block' count' : ℕ} {bytes : List UInt8}
    (hrun : Machine.Run (Serve port device bounceSize flush) s
      (ls ++ .write block count data true :: (ls' ++ [.read block' count' (some bytes)])) s')
    (hblock : block ≤ block') (hcount : block' + count' ≤ block + count)
    (hspare : ∀ x ∈ ls', x.Spares block' count') :
    bytes = slice data ((block' - block) * size) (count' * size) := by
  obtain ⟨hlen, -⟩ := h.write_shape hrun
  rw [← List.cons_append, ← List.append_assoc] at hrun
  obtain ⟨s₁, hbefore, hread⟩ := hrun.split
  obtain ⟨hword, buffer, s₂, hprep, hanswer⟩ := hread.last_of_single
  have hlo : block * size ≤ block' * size := Nat.mul_le_mul_right _ hblock
  have hhi : (block' + count') * size ≤ (block + count) * size := Nat.mul_le_mul_right _ hcount
  have hsplit : (block' + count') * size = block' * size + count' * size := Nat.add_mul _ _ _
  have hsplit' : (block + count) * size = block * size + count * size := Nat.add_mul _ _ _
  have hplace : (block' - block) * size = block' * size - block * size := Nat.sub_mul _ _ _
  rcases hanswer with ⟨hok, hbytes⟩ | ⟨-, hnone⟩
  · rw [h.blockSize] at hbytes
    have hshort : bytes.length ≤ count' * size := by
      rw [Option.some.inj hbytes]
      exact length_slice_le
    apply List.ext_getElem?
    intro i
    by_cases hi : i < count' * size
    · have hin' : block' * size + i ∈ bytesOf size block' count' := ⟨by omega, by omega⟩
      have hin : block' * size + i ∈ bytesOf size block count := ⟨by omega, by omega⟩
      have hnow := h.now_of_write hbefore hin fun x hx => Exchange.not_touched (hspare x hx) hin'
      have hindex : block' * size + i - block * size = (block' - block) * size + i := by omega
      have hget : data[(block' - block) * size + i]? =
          some (data.getD ((block' - block) * size + i) 0) := by
        rw [List.getD_eq_getElem?_getD, List.getElem?_eq_getElem (by omega)]
        rfl
      rw [Option.some.inj hbytes, h.read_ok hprep hword hok hi, getElem?_slice hi, hnow, hindex,
        hget]
    · have hslice : (slice data ((block' - block) * size) (count' * size)).length ≤
          count' * size := length_slice_le
      rw [List.getElem?_eq_none (by omega), List.getElem?_eq_none (by omega)]
  · cases hnone

end Sealed

end EspLwext4.Port
