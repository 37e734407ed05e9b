import EspLwext4.Lib.Chunks
import EspLwext4.Port.Errors

/-!
# What a transfer does

Both block-device adapters move blocks between a device and a buffer by calls of a lower driver.
A `BlockPort` is what they have in common: the device's bytes, the buffer's bytes and the calls,
read off a state. `Exact` says what one request does in these terms, and `wp_pieces` is the rule
for the loop of an adapter whose rounds move one piece each.
-/

namespace EspLwext4.Port

open Prog

inductive Direction where
  | read | write
deriving DecidableEq, Repr

/-- An adapter with a buffer argument, as its callers see it. The lower calls are those that
read or write, most recent first. -/
structure BlockPort (σ κ : Type) where
  blockSize : ℕ
  blockTotal : ℕ
  transferBufferBlocks : ℕ
  /-- `bread` and `bwrite`: first block, number of blocks -/
  transfer : Direction → ℕ → ℕ → Prog Empty Errno σ Unit
  /-- the bytes of the device -/
  content : σ → List UInt8
  /-- the bytes of the buffer -/
  memory : σ → List UInt8
  /-- the bytes of the adapter's transfer buffer -/
  bounce : σ → List UInt8
  /-- the buffer is the transfer buffer -/
  Own : Prop
  calls : σ → List (κ × EspErr)
  /-- the lower call that moves a number of blocks from a first one -/
  call : Direction → ℕ → ℕ → κ
  /-- that call, made in this state, has no effect -/
  Clean : Direction → σ → ℕ → ℕ → Prop
  /-- a request inside the device is not turned away for another reason -/
  Takes : Direction → ℕ → ℕ → Prop
  /-- no address, size or count of the request exceeds its machine word -/
  WordsFit : ℕ → ℕ → Prop
  /-- after everything was written, a `sync` failed with this error -/
  FlushFailed : Errno → σ → Prop

namespace BlockPort

variable {σ κ : Type} (p : BlockPort σ κ)

def InRange (block count : ℕ) : Prop := block + count ≤ p.blockTotal

/-- From `s` to `s'` the bytes of the blocks from `first` up to `last` have been moved, and no
others, the first block to or from the start of the buffer. -/
def Moved (first last : ℕ) (s s' : σ) : Direction → Prop
  | .read => p.content s' = p.content s ∧ p.memory s' = overwrite (p.memory s) 0
      (slice (p.content s) (first * p.blockSize) ((last - first) * p.blockSize))
  | .write => p.memory s' = p.memory s ∧
      p.content s' = overwrite (p.content s) (first * p.blockSize)
        (slice (p.memory s) 0 ((last - first) * p.blockSize))

/-- That was done by successful calls for `pieces`. -/
structure Done (dir : Direction) (first last : ℕ) (pieces : List (ℕ × ℕ)) (s s' : σ) : Prop where
  cuts : Cuts p.transferBufferBlocks first last pieces
  calls : p.calls s' =
    (pieces.map fun q => (p.call dir q.1 q.2, EspErr.ok)).reverse ++ p.calls s
  moved : p.Moved first last s s' dir

/-- After successful calls up to block `last` the next one, made in `mid`, failed with `error`
and ended the request with `e`. -/
structure StoppedAt (dir : Direction) (first count : ℕ) (s : σ) (e : Errno) (s' : σ)
    (pieces : List (ℕ × ℕ)) (last n : ℕ) (error : EspErr) (mid : σ) : Prop where
  before : p.Done dir first last pieces s mid
  pos : 0 < n
  le : n ≤ p.transferBufferBlocks
  inside : last + n ≤ first + count
  call : p.calls s' = (p.call dir last n, error) :: p.calls mid
  reported : espErrorToLwext4 error = some e
  clean : p.Clean dir mid last n → p.Moved first last s s' dir

def Stopped (dir : Direction) (first count : ℕ) (s : σ) (e : Errno) (s' : σ) : Prop :=
  ∃ pieces last n error mid, p.StoppedAt dir first count s e s' pieces last n error mid

/-- **What a request does.** One that reaches outside the device fails and does nothing. Any
other that is not turned away stays within the machine words; if it returns, exactly its bytes
have been moved, by calls for 1 to `transfer_buffer_blocks` blocks that cover its blocks once and
in order; if a call fails, exactly the blocks of the calls before it have been moved. -/
structure Exact (s : σ) (block count : ℕ) : Prop where
  outside : ¬ p.InRange block count → ∀ dir, ∃ e, p.transfer dir block count s = .err e s
  refused : ∀ dir, ¬ p.Takes dir block count → ∃ e, p.transfer dir block count s = .err e s
  inside : p.InRange block count → count * p.blockSize ≤ (p.memory s).length →
    ∀ dir, p.Takes dir block count → p.WordsFit block count ∧
      wp (p.transfer dir block count)
        (fun _ s' => ∃ pieces, p.Done dir block (block + count) pieces s s')
        (fun e s' => p.Stopped dir block count s e s' ∨
          (∃ pieces, p.Done dir block (block + count) pieces s s') ∧ p.FlushFailed e s') s

/-! ## One piece -/

/-- One successful call moved the blocks `block`, …, `block + n - 1` of a request from `first`. -/
def MovesPiece (first block n : ℕ) (s s' : σ) : Direction → Prop
  | .read => p.content s' = p.content s ∧
      p.memory s' = overwrite (p.memory s) ((block - first) * p.blockSize)
        (slice (p.content s) (block * p.blockSize) (n * p.blockSize))
  | .write => p.memory s' = p.memory s ∧
      p.content s' = overwrite (p.content s) (block * p.blockSize)
        (slice (p.memory s) ((block - first) * p.blockSize) (n * p.blockSize))

structure Piece (dir : Direction) (first block n : ℕ) (s s' : σ) : Prop where
  calls : p.calls s' = (p.call dir block n, .ok) :: p.calls s
  moves : p.MovesPiece first block n s s' dir

/-- Nothing that a request is about differs. -/
structure Alike (s s' : σ) : Prop where
  content : p.content s' = p.content s
  memory : p.memory s' = p.memory s
  calls : p.calls s' = p.calls s

/-- The call, made in `mid`, failed. -/
structure Fails (dir : Direction) (block n : ℕ) (e : Errno) (s s' : σ) (error : EspErr)
    (mid : σ) : Prop where
  alike : p.Alike s mid
  call : p.calls s' = (p.call dir block n, error) :: p.calls mid
  reported : espErrorToLwext4 error = some e
  clean : p.Clean dir mid block n → p.content s' = p.content mid ∧ p.memory s' = p.memory mid

variable {p} {dir : Direction} {first last block n : ℕ} {pieces : List (ℕ × ℕ)} {s s₁ s' : σ}

theorem Done.start (p : BlockPort σ κ) (dir : Direction) (first : ℕ) (s : σ) :
    p.Done dir first first [] s s where
  cuts := Cuts.start _ _
  calls := rfl
  moved := by
    cases dir with
    | read => simp [Moved]
    | write => simp [Moved]

theorem Moved.congr (h : p.Moved first last s s₁ dir) (hc : p.content s' = p.content s₁)
    (hm : p.memory s' = p.memory s₁) : p.Moved first last s s' dir := by
  cases dir with
  | read => exact ⟨hc.trans h.1, hm.trans h.2⟩
  | write => exact ⟨hm.trans h.1, hc.trans h.2⟩

theorem Done.congr (h : p.Done dir first last pieces s s₁) (ha : p.Alike s₁ s') :
    p.Done dir first last pieces s s' :=
  ⟨h.cuts, ha.calls.trans h.calls, h.moved.congr ha.content ha.memory⟩

/-- How much of the buffer has been used after the next piece. -/
theorem delivered_add {size : ℕ} (h : first ≤ block) :
    (block - first) * size + n * size = (block + n - first) * size := by
  rw [← Nat.add_mul, Nat.sub_add_comm h]

/-- The next piece lies behind the ones moved so far, on the device and in the buffer. -/
theorem Moved.piece (h : p.Moved first block s s₁ dir) (hp : p.MovesPiece first block n s₁ s' dir)
    (hle : first ≤ block) (hdev : (block + n) * p.blockSize ≤ (p.content s).length)
    (hmem : (block + n - first) * p.blockSize ≤ (p.memory s).length) :
    p.Moved first (block + n) s s' dir := by
  have hplace : first * p.blockSize + (block - first) * p.blockSize = block * p.blockSize := by
    rw [← Nat.add_mul, Nat.add_sub_cancel' hle]
  have hrest : (block - first) * p.blockSize + n * p.blockSize =
      (block + n - first) * p.blockSize := delivered_add hle
  have hdev' : block * p.blockSize + n * p.blockSize ≤ (p.content s).length := by
    rw [← Nat.add_mul]
    exact hdev
  cases dir with
  | read =>
    have hlen : (slice (p.content s) (first * p.blockSize)
        ((block - first) * p.blockSize)).length = (block - first) * p.blockSize := by
      apply length_slice
      omega
    refine ⟨hp.1.trans h.1, ?_⟩
    rw [hp.2, h.1, h.2, ← hrest, ← slice_append, hplace, ← overwrite_append (Nat.zero_le _), hlen,
      Nat.zero_add]
  | write =>
    have hlen : (slice (p.memory s) 0 ((block - first) * p.blockSize)).length =
        (block - first) * p.blockSize := by
      apply length_slice
      omega
    refine ⟨hp.1.trans h.1, ?_⟩
    rw [hp.2, h.1, h.2, ← hrest, ← slice_append, Nat.zero_add, ← overwrite_append (by omega), hlen,
      hplace]

theorem Done.piece (h : p.Done dir first block pieces s s₁) (hp : p.Piece dir first block n s₁ s')
    (h0 : 0 < n) (hn : n ≤ p.transferBufferBlocks)
    (hdev : (block + n) * p.blockSize ≤ (p.content s).length)
    (hmem : (block + n - first) * p.blockSize ≤ (p.memory s).length) :
    p.Done dir first (block + n) (pieces ++ [(block, n)]) s s' where
  cuts := h.cuts.piece h0 hn
  calls := by
    rw [hp.calls, h.calls]
    simp
  moved := h.moved.piece hp.moves h.cuts.le hdev hmem

theorem Moved.length_memory (h : p.Moved first last s s' dir)
    (hdev : last * p.blockSize ≤ (p.content s).length) (hle : first ≤ last)
    (hmem : (last - first) * p.blockSize ≤ (p.memory s).length) :
    (p.memory s').length = (p.memory s).length := by
  cases dir with
  | read =>
    have hplace : first * p.blockSize + (last - first) * p.blockSize = last * p.blockSize := by
      rw [← Nat.add_mul, Nat.add_sub_cancel' hle]
    have hlen : (slice (p.content s) (first * p.blockSize)
        ((last - first) * p.blockSize)).length = (last - first) * p.blockSize :=
      length_slice (hplace ▸ hdev)
    rw [h.2]
    apply length_overwrite
    rw [hlen, Nat.zero_add]
    exact hmem
  | write => rw [h.1]

/-- What a round relies on: the size of the transfer buffer, that a request in it is one round,
and room in the buffer. -/
structure Ready (p : BlockPort σ κ) (first block n : ℕ) (s : σ) : Prop where
  bounce : (p.bounce s).length = p.transferBufferBlocks * p.blockSize
  own : p.Own → block = first
  memory : (block - first) * p.blockSize + n * p.blockSize ≤ (p.memory s).length

/-- The loop, started in `s`, has come to `block`. -/
structure Reached (p : BlockPort σ κ) (dir : Direction) (first count : ℕ) (s : σ) (block : ℕ)
    (s₁ : σ) : Prop where
  bounce : (p.bounce s₁).length = p.transferBufferBlocks * p.blockSize
  at_end : p.Own → block = first ∨ block = first + count
  done : ∃ pieces, p.Done dir first block pieces s s₁

/-- A piece fits the transfer buffer. -/
theorem Ready.size_le {bounce : List UInt8} {blocks size : ℕ} (hn : n ≤ blocks)
    (h : bounce.length = blocks * size) : 0 + n * size ≤ bounce.length := by
  rw [h, Nat.zero_add]
  exact Nat.mul_le_mul_right _ hn

/-- **The loop.** A request is carried out by rounds that each move a piece and keep the size of
the transfer buffer. -/
theorem wp_pieces {step : ℕ → ℕ → Prog Empty Errno σ Unit} {count : ℕ}
    (hmax : 0 < p.transferBufferBlocks) (hown : p.Own → count ≤ p.transferBufferBlocks)
    (hbounce : (p.bounce s).length = p.transferBufferBlocks * p.blockSize)
    (hdev : (first + count) * p.blockSize ≤ (p.content s).length)
    (hmem : count * p.blockSize ≤ (p.memory s).length)
    (hstep : ∀ block n s₁, first ≤ block → block + n ≤ first + count → 0 < n →
      n ≤ p.transferBufferBlocks → p.Ready first block n s₁ →
      wp (step block n)
        (fun _ s₂ => (p.bounce s₂).length = (p.bounce s₁).length ∧ p.Piece dir first block n s₁ s₂)
        (fun e s₂ => ∃ error mid, p.Fails dir block n e s₁ s₂ error mid) s₁) :
    wp (chunked p.transferBufferBlocks step count count first)
      (fun _ s' => ∃ pieces, p.Done dir first (first + count) pieces s s')
      (p.Stopped dir first count s) s := by
  have hall : first + count - first = count := Nat.add_sub_cancel_left _ _
  suffices hround : ∀ block n s₁, block + n ≤ first + count →
      n = min (first + count - block) p.transferBufferBlocks → 0 < n →
      p.Reached dir first count s block s₁ →
      wp (step block n) (fun _ => p.Reached dir first count s (block + n))
        (p.Stopped dir first count s) s₁ by
    have hrun := wp_chunked (p.Reached dir first count s) hmax hround (Nat.le_add_right _ _)
      (Nat.le_of_eq hall) ⟨hbounce, fun _ => Or.inl rfl, [], Done.start p dir first s⟩
    rw [hall] at hrun
    exact wp_mono hrun (fun _ _ h => h.done) fun _ _ h => h
  rintro block n s₁ hlast hn h0 ⟨hlen, hat, pieces, hdone⟩
  have hfirst := hdone.cuts.le
  have hmax' : n ≤ p.transferBufferBlocks := hn ▸ Nat.min_le_right _ _
  have hdev' : (block + n) * p.blockSize ≤ (p.content s).length :=
    (Nat.mul_le_mul_right _ hlast).trans hdev
  have hmem' : (block + n - first) * p.blockSize ≤ (p.memory s).length :=
    (Nat.mul_le_mul_right _ (by omega)).trans hmem
  have hready : p.Ready first block n s₁ := by
    refine ⟨hlen, fun ho => ?_, ?_⟩
    · rcases hat ho with h | h
      · exact h
      · omega
    · have hkept := hdone.moved.length_memory
        ((Nat.mul_le_mul_right _ (Nat.le_add_right _ _)).trans hdev') hfirst
        ((Nat.mul_le_mul_right _ (by omega)).trans hmem')
      rw [hkept, ← Nat.add_mul, ← Nat.sub_add_comm hfirst]
      exact hmem'
  apply wp_mono (hstep block n s₁ hfirst hlast h0 hmax' hready)
  · rintro _ s₂ ⟨hlen₂, hpiece⟩
    refine ⟨hlen₂.trans hlen, fun ho => Or.inr ?_, _, hdone.piece hpiece h0 hmax' hdev' hmem'⟩
    -- a request in the transfer buffer is one round
    have hblock := hready.own ho
    have hcount := hown ho
    omega
  · rintro e s₂ ⟨error, mid, hf⟩
    have hmid := hdone.congr hf.alike
    refine ⟨pieces, block, n, error, mid, hmid, h0, hmax', hlast, hf.call, hf.reported, ?_⟩
    intro hclean
    exact hmid.moved.congr (hf.clean hclean).1 (hf.clean hclean).2

end BlockPort

end EspLwext4.Port
