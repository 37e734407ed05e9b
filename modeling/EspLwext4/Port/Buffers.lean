import EspLwext4.Lib.Chunks
import EspLwext4.Lib.Lens
import EspLwext4.Port.Errors

/-!
# Buffers and answers

What both block-device adapters do around a call of the lower device: they copy between their
own transfer buffer and the buffer argument, and turn the answer of the call into their result.
-/

namespace EspLwext4.Port

open Prog

/-- The buffer argument of a transfer: `NULL`, the adapter's own, or a caller's. -/
inductive Buffer where
  | null | transfer | caller
deriving DecidableEq, Repr

/-- The memory that a transfer moves bytes in. -/
structure Buffers where
  transferBuffer : List UInt8
  /-- the caller's buffer -/
  buffer : List UInt8

/-- `memcpy` into a buffer at an offset. -/
def putBytes (old : List UInt8) (offset : ℕ) (bytes : List UInt8) : List UInt8 :=
  old.take offset ++ bytes ++ old.drop (offset + bytes.length)

def getBytes (old : List UInt8) (offset size : ℕ) : List UInt8 := (old.drop offset).take size

namespace Buffers

/-- The bytes of the buffer argument. -/
def memory (b : Buffers) : Buffer → List UInt8
  | .transfer => b.transferBuffer
  | _ => b.buffer

/-- `memcpy(destination, transfer_buffer, chunk_size)` -/
def copyOut (b : Buffers) (buffer : Buffer) (done size : ℕ) : Buffers :=
  let bytes := b.transferBuffer.take size
  match buffer with
  | .null => b
  | .transfer => { b with transferBuffer := putBytes b.transferBuffer done bytes }
  | .caller => { b with buffer := putBytes b.buffer done bytes }

/-- `memcpy(transfer_buffer, source, chunk_size)` -/
def copyIn (b : Buffers) (buffer : Buffer) (done size : ℕ) : Buffers :=
  match buffer with
  | .null => b
  | .transfer =>
    { b with transferBuffer := putBytes b.transferBuffer 0 (getBytes b.transferBuffer done size) }
  | .caller =>
    { b with transferBuffer := putBytes b.transferBuffer 0 (getBytes b.buffer done size) }

variable {b : Buffers} {buffer : Buffer} {done size : ℕ}

/-- Staging bytes for the lower device leaves the caller's buffer alone. -/
theorem memory_copyIn_caller : (b.copyIn .caller done size).memory .caller = b.memory .caller := rfl

/-- What is staged is the piece of the buffer argument. -/
theorem take_copyIn_caller (h : done + size ≤ b.buffer.length) :
    (b.copyIn .caller done size).transferBuffer.take size = slice (b.memory .caller) done size := by
  have hlen : (slice b.buffer done size).length = size := length_slice h
  show (overwrite b.transferBuffer 0 (slice b.buffer done size)).take size = _
  conv => lhs; arg 1; rw [← hlen]
  exact slice_overwrite_zero

theorem length_copyIn_caller (h : done + size ≤ b.buffer.length)
    (hroom : size ≤ b.transferBuffer.length) :
    (b.copyIn .caller done size).transferBuffer.length = b.transferBuffer.length := by
  have hlen : (slice b.buffer done size).length = size := length_slice h
  have hfits : 0 + (slice b.buffer done size).length ≤ b.transferBuffer.length := by
    rw [hlen, Nat.zero_add]
    exact hroom
  exact length_overwrite hfits

end Buffers

section Adapter

variable {σ : Type}

/-- A copy from the transfer buffer of an adapter's state. -/
def copyOut (l : Lens σ Buffers) (buffer : Buffer) (done size : ℕ) : Prog Empty Errno σ Unit :=
  zoom l (update fun b => b.copyOut buffer done size)

/-- A copy into the transfer buffer. -/
def copyIn (l : Lens σ Buffers) (buffer : Buffer) (done size : ℕ) : Prog Empty Errno σ Unit :=
  zoom l (update fun b => b.copyIn buffer done size)

/-- `esp_error_to_lwext4` as the result of a call. -/
def returnError (error : EspErr) : Prog Empty Errno σ Unit :=
  match espErrorToLwext4 error with
  | none => pure ()
  | some e => raise e

@[simp] theorem wp_returnError {error : EspErr} {Q : Unit → σ → Prop} {E : Errno → σ → Prop}
    {s : σ} : wp (returnError error) Q E s ↔
      (error = .ok → Q () s) ∧ ∀ e, espErrorToLwext4 error = some e → E e s := by
  unfold returnError
  cases hmap : espErrorToLwext4 error with
  | none => simp [espErrorToLwext4_eq_none.mp hmap]
  | some e =>
    have hne : error ≠ .ok := fun h => by
      rw [espErrorToLwext4_eq_none.mpr h] at hmap
      cases hmap
    simp [hne]

end Adapter

end EspLwext4.Port
