import EspLwext4.Extent.Remove

/-!
# The three extent hooks

`ext4_extent_tree_init`, `ext4_extent_get_blocks` and
`ext4_extent_remove_space`.
-/

namespace EspLwext4

open Prog

variable (inodeRef : InodeRef)

def ext4ExtentTreeInit : M Unit := do
  storeHeader inodeRef .root ⟨ext4ExtentMagic, 0, ext4ExtentRootMaxEntries, 0, 0⟩
  clear inodeRef .root ext4ExtentHeaderSize (60 - ext4ExtentHeaderSize)
  setInodeDirty

/-! ## Lookup and allocation -/

/-- Blocks up to the next mapping, or `none` when nothing is mapped behind. -/
def gapToNext (path : ExtentSearchPath) (leaf : ExtentPathNode) (iblock : ℕ) :
    M (Option ℕ) :=
  if leaf.haveExtent ∧ 0 < leaf.header.entriesCount then
    if iblock < leaf.extent.firstBlock then pure (some (sub32 leaf.extent.firstBlock iblock))
    else if leaf.position + 1 < leaf.header.entriesCount then do
      let next ← nodeGetExtent inodeRef leaf (leaf.position + 1)
      return some (sub32 next.firstBlock iblock)
    else do
      match ← (findNextExtent inodeRef path).attempt with
      | .ok next =>
          if next.firstBlock ≤ iblock then raise .eio
          else pure (some (sub32 next.firstBlock iblock))
      | .error .enoent => pure none
      | .error e => raise e
  else pure none

/-- Continue after the previous extent so sequential writes merge. -/
def allocationGoal (leaf : ExtentPathNode) (iblock : ℕ) : ℕ :=
  if leaf.haveExtent ∧ 0 < leaf.header.entriesCount ∧
      u32 (leaf.extent.firstBlock + extentGetActualLen leaf.extent) = iblock then
    extentGetPblock leaf.extent + extentGetActualLen leaf.extent
  else inodeRef.lwext4.inodeToGoalBlock

/-- Free the run allocated so far and report `e`, or the error of freeing it. -/
def freeRun {α : Type} (first count : ℕ) (e : Errno) : M α := do
  ballocFreeBlocks inodeRef first count
  raise e

/-- The allocation loop: `n` blocks still wanted, `count` blocks from `first` on
in hand. -/
def allocateRun : (n goal first count : ℕ) → M (ℕ × ℕ)
  | 0, _, first, count => pure (first, count)
  | n + 1, goal, first, count => do
      match ← (ballocAllocBlock inodeRef goal).attempt with
      | .error e =>
          if count = 0 then raise e
          else if e ≠ .enospc then freeRun inodeRef first count e
          else pure (first, count)
      | .ok candidate =>
          if count = 0 then allocateRun n (candidate + 1) candidate 1
          else if candidate = first + count then
            allocateRun n (candidate + 1) first (count + 1)
          else do
            (ballocFreeBlock inodeRef candidate).orElse (freeRun inodeRef first count)
            return (first, count)

/-- The extent covers `iblock`. -/
def mappedAt (leaf : ExtentPathNode) (iblock : ℕ) : Prop :=
  leaf.haveExtent = true ∧ 0 < leaf.header.entriesCount ∧ inExtent leaf.extent iblock = true

instance (leaf : ExtentPathNode) (iblock : ℕ) : Decidable (mappedAt leaf iblock) := by
  unfold mappedAt; infer_instance

/-- The creating part of `ext4_extent_get_blocks`, on an unmapped block. -/
def createBlocks (path : ExtentSearchPath) (leaf : ExtentPathNode) (iblock maxBlocks : ℕ) :
    M (ℕ × ℕ) := do
  requireJournaledMutation inodeRef
  let cap := min maxBlocks extInitMaxLen
  let gap ← gapToNext inodeRef path leaf iblock
  let cap := (gap.map (min cap)).getD cap
  failIf (cap = 0) .eexist
  let (first, count) ← allocateRun inodeRef cap (allocationGoal inodeRef leaf iblock) 0 0
  failIf (count = 0) .enospc
  (insertExtent inodeRef 8 iblock (extentStorePblock ⟨iblock, u16 count, 0, 0⟩ first)).orElse
    (freeRun inodeRef first count)
  return (first, count)

/-- Returns `*result` and `*blocks_count`. -/
def ext4ExtentGetBlocks (iblock maxBlocks : UInt32) (create : Bool) : M (ℕ × ℕ) := do
  let iblock := iblock.toNat
  let maxBlocks := maxBlocks.toNat
  let path ← findExtent inodeRef iblock
  let leaf ← path.node path.depth
  if mappedAt leaf iblock then
    if extentIsUnwritten leaf.extent then
      -- unwritten extents read as zeroes
      if create then raise .enotsup else pure (0, 0)
    else
      let off := iblock - leaf.extent.firstBlock
      pure (extentGetPblock leaf.extent + off,
        min maxBlocks (sub32 (extentGetActualLen leaf.extent) off))
  else if create = false then pure (0, 0)
  else createBlocks inodeRef path leaf iblock maxBlocks

/-! ## Removal -/

/-- One round of the loop of `ext4_extent_remove_space`: the next `from`, or
`none` when the function returns `EOK`. -/
def removeSpaceStep (first last : ℕ) : M (Option ℕ) := do
  let path ← findExtent inodeRef first
  let leaf ← path.node path.depth
  if leaf.haveExtent = false ∨ leaf.header.entriesCount = 0 ∨
      last < leaf.extent.firstBlock then pure none
  else do
    let exFirst := leaf.extent.firstBlock
    let exLast := sub32 (u32 (exFirst + extentGetActualLen leaf.extent)) 1
    if exFirst < first ∧ last < exLast then do
      removeMiddleOfExtent inodeRef first last
      return none
    else if exLast < first then do
      -- the search returned the extent preceding a hole
      match ← (findNextExtent inodeRef path).attempt with
      | .error .enoent => pure none
      | .error e => raise e
      | .ok next => pure (some next.firstBlock)
    else do
      let removeTo := if exLast < last then exLast else last
      removeLeaf inodeRef path first removeTo
      if removeTo = uint32Max then pure none else pure (some (removeTo + 1))

/-- The loop, stopped after `fuel` rounds. -/
def removeSpaceLoop (last : ℕ) : (fuel first : ℕ) → M Unit
  | 0, _ => crash .outOfFuel
  | fuel + 1, first =>
      if first ≤ last then do
        match ← removeSpaceStep inodeRef first last with
        | none => pure ()
        | some next => removeSpaceLoop last fuel next
      else pure ()

def ext4ExtentRemoveSpace (fuel : ℕ) (first last : UInt32) : M Unit := do
  requireJournaledMutation inodeRef
  removeSpaceLoop inodeRef last.toNat fuel first.toNat

end EspLwext4
