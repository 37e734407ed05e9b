import EspLwext4.Port.Buffers
import EspLwext4.Port.Transfers

/-!
# Rounds of a transfer

A round moves one piece: the lower device reads into the transfer buffer or writes from it, and
the piece is copied to or from the buffer argument unless it already lies there. The two adapters
differ in the call alone, so a round is written with the call as a parameter, and what a call
must do is stated in the terms of a port.
-/

namespace EspLwext4.Port

open Prog

variable {σ κ : Type}

/-- A round of a read, `size` bytes to a block. -/
def readPiece (l : Lens σ Buffers) (call : ℕ → ℕ → Prog Empty Errno σ Unit) (buffer : Buffer)
    (size first block n : ℕ) : Prog Empty Errno σ Unit := do
  call block n
  whenever (¬ (buffer = .transfer ∧ block = first))
    (copyOut l buffer ((block - first) * size) (n * size))

/-- A round of a write. -/
def writePiece (l : Lens σ Buffers) (call : ℕ → ℕ → Prog Empty Errno σ Unit) (buffer : Buffer)
    (size first block n : ℕ) : Prog Empty Errno σ Unit := do
  whenever (¬ (buffer = .transfer ∧ block = first))
    (copyIn l buffer ((block - first) * size) (n * size))
  call block n

/-- Nothing has been delivered exactly before the first piece. -/
theorem whenever_moved {buffer : Buffer} {size first block : ℕ} (hpos : 0 < size)
    (hfirst : first ≤ block) (m : Prog Empty Errno σ Unit) :
    whenever (¬ (buffer = .transfer ∧ (block - first) * size = 0)) m =
      whenever (¬ (buffer = .transfer ∧ block = first)) m := by
  have hstart : (block - first) * size = 0 ↔ block = first := by
    rw [Nat.mul_eq_zero]
    omega
  exact whenever_congr (by rw [hstart])

namespace BlockPort

/-- The port's buffers are the part `l` of the state, apart from its device and its calls. -/
structure Uses (p : BlockPort σ κ) (l : Lens σ Buffers) (buffer : Buffer) : Prop where
  memory : ∀ s, p.memory s = (l.get s).memory buffer
  bounce : ∀ s, p.bounce s = (l.get s).transferBuffer
  own : p.Own ↔ buffer = .transfer
  get_set : ∀ b s, l.get (l.set b s) = b
  content : ∀ b s, p.content (l.set b s) = p.content s
  calls : ∀ b s, p.calls (l.set b s) = p.calls s

/-- The call that reads `n` blocks from `block`, made in `s`, was answered with `error` in `s'`.
The caller's buffer is out of its reach. -/
structure Reads (p : BlockPort σ κ) (l : Lens σ Buffers) (block n : ℕ) (s : σ) (error : EspErr)
    (s' : σ) : Prop where
  calls : p.calls s' = (p.call .read block n, error) :: p.calls s
  buffer : (l.get s').buffer = (l.get s).buffer
  done : error = .ok → p.content s' = p.content s ∧
    (l.get s').transferBuffer = overwrite (l.get s).transferBuffer 0
      (slice (p.content s) (block * p.blockSize) (n * p.blockSize))
  clean : p.Clean .read s block n →
    p.content s' = p.content s ∧ (l.get s').transferBuffer = (l.get s).transferBuffer

/-- The same of the call that writes the start of the transfer buffer. -/
structure Writes (p : BlockPort σ κ) (l : Lens σ Buffers) (block n : ℕ) (s : σ) (error : EspErr)
    (s' : σ) : Prop where
  calls : p.calls s' = (p.call .write block n, error) :: p.calls s
  buffers : l.get s' = l.get s
  done : error = .ok → p.content s' = overwrite (p.content s) (block * p.blockSize)
    ((l.get s).transferBuffer.take (n * p.blockSize))
  clean : p.Clean .write s block n → p.content s' = p.content s

section Piece

variable {p : BlockPort σ κ} {l : Lens σ Buffers} {buffer : Buffer}
  {call : ℕ → ℕ → Prog Empty Errno σ Unit} {first block n : ℕ} {s s' : σ} {error : EspErr}

/-- **A round of a read** moves its piece, or ends with the answer of its call. -/
theorem wp_readPiece (hu : p.Uses l buffer) (hnull : buffer ≠ .null)
    (hn : n ≤ p.transferBufferBlocks) (hready : p.Ready first block n s)
    (hdev : (block + n) * p.blockSize ≤ (p.content s).length)
    (hcall : call block n s = returnError error s') (h : p.Reads l block n s error s') :
    wp (readPiece l call buffer p.blockSize first block n)
      (fun _ s₂ => (p.bounce s₂).length = (p.bounce s).length ∧
        p.Piece .read first block n s s₂)
      (fun e s₂ => ∃ error mid, p.Fails .read block n e s s₂ error mid) s := by
  unfold readPiece
  rw [wp_bind, wp_iff_of_eq hcall, wp_returnError]
  constructor
  · intro hok
    obtain ⟨hcontent, htransfer⟩ := h.done hok
    have hlen : (slice (p.content s) (block * p.blockSize) (n * p.blockSize)).length =
        n * p.blockSize := by
      apply length_slice
      rw [← Nat.add_mul]
      exact hdev
    have hroom : 0 + n * p.blockSize ≤ (l.get s).transferBuffer.length :=
      Ready.size_le hn ((congrArg List.length (hu.bounce s)).symm.trans hready.bounce)
    have hsame : (l.get s').transferBuffer.length = (l.get s).transferBuffer.length := by
      rw [htransfer]
      exact length_overwrite (hlen.symm ▸ hroom)
    have hcalls := h.calls
    rw [hok] at hcalls
    rw [wp_whenever]
    cases buffer with
    | null => exact absurd rfl hnull
    | transfer =>
      -- the piece is already in its place
      have hfirst := hready.own (hu.own.mpr rfl)
      refine ⟨fun hne => absurd ⟨rfl, hfirst⟩ hne, fun _ => ⟨?_, hcalls, hcontent, ?_⟩⟩
      · rw [hu.bounce, hu.bounce]
        exact hsame
      · rw [hu.memory, hu.memory, hfirst, Nat.sub_self, Nat.zero_mul]
        rw [hfirst] at htransfer
        exact htransfer
    | caller =>
      refine ⟨fun _ => ?_, fun hne => absurd (fun hc => by cases hc.1) hne⟩
      unfold copyOut
      rw [wp_zoom, wp_update]
      refine ⟨?_, (hu.calls _ _).trans hcalls, (hu.content _ _).trans hcontent, ?_⟩
      · rw [hu.bounce, hu.bounce, hu.get_set]
        exact hsame
      · have htake : (l.get s').transferBuffer.take (n * p.blockSize) =
            slice (p.content s) (block * p.blockSize) (n * p.blockSize) := by
          rw [htransfer]
          conv => lhs; arg 1; rw [← hlen]
          exact slice_overwrite_zero
        rw [hu.memory, hu.memory, hu.get_set]
        show putBytes (l.get s').buffer _ ((l.get s').transferBuffer.take (n * p.blockSize)) =
          overwrite (l.get s).buffer _ _
        rw [htake, h.buffer]
        rfl
  · intro e he
    refine ⟨error, s, ⟨rfl, rfl, rfl⟩, h.calls, he, fun hclean => ?_⟩
    obtain ⟨hcontent, htransfer⟩ := h.clean hclean
    refine ⟨hcontent, ?_⟩
    have hbuffers : l.get s' = l.get s := by
      cases hb' : l.get s'
      cases hb : l.get s
      rw [hb', hb] at htransfer
      have hbuffer := h.buffer
      rw [hb', hb] at hbuffer
      exact congrArg₂ Buffers.mk htransfer hbuffer
    rw [hu.memory, hu.memory, hbuffers]

/-- What a round of a write has put at the start of the transfer buffer when it makes its call. -/
structure Staged (p : BlockPort σ κ) (l : Lens σ Buffers) (first block n : ℕ) (s mid : σ) :
    Prop where
  bytes : (l.get mid).transferBuffer.take (n * p.blockSize) =
    slice (p.memory s) ((block - first) * p.blockSize) (n * p.blockSize)
  length : (p.bounce mid).length = (p.bounce s).length
  alike : p.Alike s mid

theorem wp_copyIn_staged (hu : p.Uses l buffer) (hnull : buffer ≠ .null)
    (hn : n ≤ p.transferBufferBlocks) (hready : p.Ready first block n s) :
    wp (whenever (¬ (buffer = .transfer ∧ block = first))
        (copyIn l buffer ((block - first) * p.blockSize) (n * p.blockSize)))
      (fun _ mid => p.Staged l first block n s mid) (fun _ _ => False) s := by
  rw [wp_whenever]
  cases buffer with
  | null => exact absurd rfl hnull
  | transfer =>
    have hfirst := hready.own (hu.own.mpr rfl)
    refine ⟨fun hne => absurd ⟨rfl, hfirst⟩ hne, fun _ => ⟨?_, rfl, rfl, rfl, rfl⟩⟩
    rw [hu.memory, hfirst, Nat.sub_self, Nat.zero_mul]
    rfl
  | caller =>
    refine ⟨fun _ => ?_, fun hne => absurd (fun hc => by cases hc.1) hne⟩
    have hmem := hready.memory
    rw [hu.memory] at hmem
    have hroom : 0 + n * p.blockSize ≤ (l.get s).transferBuffer.length :=
      Ready.size_le hn ((congrArg List.length (hu.bounce s)).symm.trans hready.bounce)
    rw [Nat.zero_add] at hroom
    unfold copyIn
    rw [wp_zoom, wp_update]
    refine ⟨?_, ?_, hu.content _ _, ?_, hu.calls _ _⟩
    · rw [hu.get_set, hu.memory]
      exact Buffers.take_copyIn_caller hmem
    · rw [hu.bounce, hu.bounce, hu.get_set]
      exact Buffers.length_copyIn_caller hmem hroom
    · rw [hu.memory, hu.memory, hu.get_set]
      exact Buffers.memory_copyIn_caller

/-- **A round of a write.** -/
theorem wp_writePiece (hu : p.Uses l buffer) (hnull : buffer ≠ .null)
    (hn : n ≤ p.transferBufferBlocks) (hready : p.Ready first block n s)
    (hcall : ∀ mid, p.Staged l first block n s mid →
      ∃ error s', call block n mid = returnError error s' ∧ p.Writes l block n mid error s') :
    wp (writePiece l call buffer p.blockSize first block n)
      (fun _ s₂ => (p.bounce s₂).length = (p.bounce s).length ∧
        p.Piece .write first block n s s₂)
      (fun e s₂ => ∃ error mid, p.Fails .write block n e s s₂ error mid) s := by
  unfold writePiece
  rw [wp_bind]
  apply wp_mono (wp_copyIn_staged hu hnull hn hready) _ fun _ _ hf => hf.elim
  intro _ mid hmid
  obtain ⟨error, s', hrun, h⟩ := hcall mid hmid
  have hmemory : p.memory s' = p.memory mid := by
    rw [hu.memory, hu.memory, h.buffers]
  rw [wp_iff_of_eq hrun, wp_returnError]
  constructor
  · intro hok
    have hcalls := h.calls
    rw [hok, hmid.alike.calls] at hcalls
    refine ⟨?_, hcalls, hmemory.trans hmid.alike.memory, ?_⟩
    · rw [hu.bounce, h.buffers, ← hu.bounce]
      exact hmid.length
    · rw [h.done hok, hmid.bytes, hmid.alike.content]
  · intro e he
    exact ⟨error, mid, hmid.alike, h.calls, he, fun hclean => ⟨h.clean hclean, hmemory⟩⟩

end Piece

end BlockPort

/-! ## What a round keeps -/

section Keeps

variable {R : σ → σ → Prop} [StepRel R] {l : Lens σ Buffers} {buffer : Buffer}
  {call : ℕ → ℕ → Prog Empty Errno σ Unit} {size first block n : ℕ} {s : σ}

/-- What no copy touches and the call keeps, a round keeps. -/
theorem keeps_readPiece (hset : ∀ b s, R s (l.set b s)) (hcall : Keeps R (call block n) s) :
    Keeps R (readPiece l call buffer size first block n) s :=
  Keeps.bind hcall fun _ _ => Keeps.whenever fun _ => Keeps.zoom fun b => hset b _

theorem keeps_writePiece (hset : ∀ b s, R s (l.set b s))
    (hcall : ∀ s, Keeps R (call block n) s) :
    Keeps R (writePiece l call buffer size first block n) s :=
  Keeps.bind (Keeps.whenever fun _ => Keeps.zoom fun b => hset b _) fun _ s' => hcall s'

end Keeps

end EspLwext4.Port
