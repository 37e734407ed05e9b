import EspLwext4.Port.Lwext4

/-!
# Path strings

The functions of `port/esp_lwext4.c` that only look at the bytes of a path.
Their loops pass at least one byte a round, so the length of the path bounds
the rounds.
-/

namespace EspLwext4.Port

/-- `while (*p == '/') ++p;` -/
def skipSlashes (p : CStr) : CStr := p.dropWhile (· == slash)

/-- The bytes up to the next slash or the end. -/
def component (p : CStr) : CStr := p.takeWhile (· != slash)

def afterComponent (p : CStr) : CStr := p.dropWhile (· != slash)

def isDot (name : CStr) : Bool := name == [dot]

def isDotDot (name : CStr) : Bool := name == [dot, dot]

def strictDescendantLoop : ℕ → CStr → CStr → Bool
  | 0, _, child => skipSlashes child != []
  | rounds + 1, parent, child =>
    if parent = [] then skipSlashes child != []
    else
      let parent := skipSlashes parent
      let child := skipSlashes child
      if parent = [] then skipSlashes child != []
      else if component parent ≠ component child then false
      else strictDescendantLoop rounds (afterComponent parent) (afterComponent child)

def pathIsStrictDescendant (parent child : CStr) : Bool :=
  strictDescendantLoop parent.length parent child

/-- The components that the loops of `path_has_dot_component` and
`path_is_mount_root` visit; after a final slash they visit an empty one. -/
def visited : ℕ → CStr → List CStr
  | 0, _ => []
  | rounds + 1, p =>
    if p = [] then []
    else component (skipSlashes p) :: visited rounds (afterComponent (skipSlashes p))

def pathHasDotComponent (path : CStr) : Bool :=
  (visited path.length path).any fun c => isDot c || isDotDot c

/-- One round of `path_is_mount_root`. -/
def depthAfter (depth : ℕ) (c : CStr) : ℕ :=
  if c.length = 0 ∨ isDot c then depth
  else if isDotDot c then (if depth ≠ 0 then depth - 1 else depth)
  else depth + 1

def pathIsMountRoot (relativePath : CStr) : Bool :=
  (visited relativePath.length relativePath).foldl depthAfter 0 == 0

/-- `normalize_mount_point` without its allocation; `none` is `NULL`. -/
def normalizeMountPoint (maxName : ℕ) (mountPoint : CStr) : Option CStr :=
  if mountPoint.head? ≠ some slash then none
  else if mountPoint.length = 0 ∨ maxName < mountPoint.length then none
  else
    let needsSlash := mountPoint.getLast? ≠ some slash
    if needsSlash ∧ mountPoint.length = maxName then none
    else some (if needsSlash then mountPoint ++ [slash] else mountPoint)

section

variable {σ : Type} (idf : Idf σ)

open Prog

/-- `malloc(size)`, with `errno` set to `ENOMEM` when it fails. -/
def Idf.allocate (size : ℕ) : Call σ Unit := fun s =>
  match idf.malloc size s with
  | (true, s') => .ok () s'
  | (false, s') => .err .enomem s'

/-- `make_path` -/
def makePath (mountPoint vfsPath : CStr) : Call σ CStr := do
  failIf (vfsPath.head? ≠ some slash) .einval
  let suffix := vfsPath.tail
  failIf ((idf.sizeMax : ℤ) - suffix.length - 1 < mountPoint.length) .enametoolong
  idf.allocate (mountPoint.length + suffix.length + 1)
  return mountPoint ++ suffix

/-- `take_lock` -/
def takeLock : Call σ Unit := fun s =>
  match idf.semaphoreTake s with
  | (true, s') => .ok () s'
  | (false, s') => .err .eio s'

end

end EspLwext4.Port
