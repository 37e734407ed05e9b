import Mathlib.Data.Nat.Notation

/-!
# Error codes of the port

`errno` values of the VFS adapter and of lwext4, and the `esp_err_t` values of
ESP-IDF, with the two translations between them. `EOK` is the absence of an
`Errno`; `ESP_OK` is a value, since the block-device adapter stores it.
-/

namespace EspLwext4.Port

inductive Errno where
  | eio | enoent | enospc | einval | eexist | enotsup | efbig | enomem | ebadf | erofs | emfile
  | eisdir | enotdir | enotempty | ebusy | estale | eoverflow | enametoolong | eacces
  | other (code : ℕ)
deriving DecidableEq, Repr

inductive EspErr where
  | ok | fail | noMem | invalidArg | invalidState | invalidSize | notFound | notSupported
  | other (code : ℕ)
deriving DecidableEq, Repr

/-- `esp_error_to_lwext4`; `none` is `EOK`. -/
def espErrorToLwext4 : EspErr → Option Errno
  | .ok => none
  | .invalidArg | .invalidSize | .invalidState => some .einval
  | .noMem => some .enomem
  | .notSupported => some .enotsup
  | .notFound => some .enoent
  | _ => some .eio

/-- `lwext4_error_to_esp` on an error. -/
def lwext4ErrorToEsp : Errno → EspErr
  | .einval | .enotdir | .eisdir => .invalidArg
  | .enoent => .notFound
  | .enomem => .noMem
  | .erofs => .invalidState
  | .enotsup => .notSupported
  | _ => .fail

@[simp] theorem espErrorToLwext4_eq_none {e : EspErr} : espErrorToLwext4 e = none ↔ e = .ok := by
  cases e <;> simp [espErrorToLwext4]

end EspLwext4.Port
