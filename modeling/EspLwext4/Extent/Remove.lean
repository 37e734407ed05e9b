import EspLwext4.Extent.Insert

/-!
# Removing mappings

`remove_blocks`, `remove_leaf`, `remove_index` and `remove_middle_of_extent`.
-/

namespace EspLwext4

open Prog

variable (inodeRef : InodeRef)

def removeBlocks (extent : Ext4Extent) (first last : ℕ) : M Unit :=
  let len := u32 (sub32 last first + 1)
  let num := sub32 first extent.firstBlock
  ballocFreeBlocks inodeRef (extentGetPblock extent + num) len

def removeIndexBlock (index : Ext4ExtentIndex) : M Unit :=
  ballocFreeBlocks inodeRef (indexGetPblock index) 1

/-! ## Removing an index entry -/

/-- Delete entry `pos` of an index node and uncount it; returns the first key
left, or 0. -/
def dropIndex (node : ExtentPathNode) : M ℕ := do
  let pos := node.position
  let entries := node.header.entriesCount
  whenever (pos ≠ sub32 entries 1) do
    moveEntries inodeRef node.place pos (pos + 1) (sub32 (sub32 entries pos) 1)
    clear inodeRef node.place (entryOff (sub32 entries 1)) ext4ExtentIndexSize
  storeHeader inodeRef node.place { node.header with entriesCount := u16 (sub32 entries 1) }
  if 0 < u16 (sub32 entries 1) then loadKey inodeRef node.place 0 else pure 0

/-- Collapse an empty index root back to an empty leaf. -/
def collapseRoot : M Unit := do
  let rootHeader ← loadHeader inodeRef .root
  storeHeader inodeRef .root { rootHeader with depth := 0 }
  setInodeDirty

/-- `remove_index`, with the recursive call on the parent level passed in. -/
def removeIndexStep (path : ExtentSearchPath) (depth : ℕ) (removeParent : M Unit) : M Unit := do
  let node ← path.node depth
  getForWrite inodeRef .removeIndex node
  let firstAfter ← dropIndex inodeRef node
  finishNode inodeRef node
  removeIndexBlock inodeRef node.index
  let left := u16 (sub32 node.header.entriesCount 1)
  whenever (node.position = 0 ∧ 0 < left) do
    correctIndexes inodeRef path firstAfter depth
  if left = 0 then
    if node.pblockOfNode = 0 then collapseRoot inodeRef else removeParent
  else pure ()

/-- The emptied node of level `depth` goes from its parent on level `depth - 1`;
level 0 has no parent and its `pblock_of_node` is 0. -/
def removeIndex (path : ExtentSearchPath) : (depth : ℕ) → M Unit
  | 0 => removeIndexStep inodeRef path 0 (crash .outOfBounds)
  | depth + 1 => removeIndexStep inodeRef path (depth + 1) (removeIndex path depth)

/-! ## Removing from a leaf -/

/-- What `remove_leaf` keeps of `ex` when it frees the part in `[first, last]`:
the blocks to free and the extent left, if any. -/
def trimExtent (ex : Ext4Extent) (first last : ℕ) : (ℕ × ℕ) × Option Ext4Extent :=
  let len := extentGetActualLen ex
  let start := ex.firstBlock
  let keep (newStart newblock newLen : ℕ) : Option Ext4Extent :=
    if newLen = 0 then none
    else
      let kept := extentSetActualLen
        (extentStorePblock { ex with firstBlock := newStart } newblock) newLen
      some (if extentIsUnwritten ex then extentMarkUnwritten kept else kept)
  let lastOf (start len : ℕ) : ℕ := sub32 (u32 (start + len)) 1
  if start < first then
    let cut := u16 (sub32 len (sub32 first start))
    ((first, lastOf first cut), keep start (extentGetPblock ex) (u16 (sub32 first start)))
  else if last < lastOf start len then
    let newLen := u16 (sub32 (lastOf start len) last)
    let cut := u16 (sub32 len newLen)
    ((start, lastOf start cut),
      keep (u32 (last + 1)) (extentGetPblock ex + sub32 (u32 (last + 1)) start) newLen)
  else ((start, lastOf start len), none)

/-- The loop of `remove_leaf` with `n` entries to go; returns `write`, `i` and
the entry count at its end. -/
def removeLeafLoop (data : Place) (leaf : ExtentPathNode) (first last : ℕ) :
    (n i write newEntryCount : ℕ) → M (ℕ × ℕ × ℕ)
  | 0, i, write, newEntryCount => pure (write, i, newEntryCount)
  | n + 1, i, write, newEntryCount => do
      let ex ← loadExtent inodeRef data i
      if last < ex.firstBlock then pure (write, i, newEntryCount)
      else if sub32 (u32 (ex.firstBlock + extentGetActualLen ex)) 1 < first then do
        -- keep the entry, compacting it forward
        storeExtent inodeRef data write ex
        removeLeafLoop data leaf first last n (i + 1) (write + 1) newEntryCount
      else do
        let cut := trimExtent ex first last
        (removeBlocks inodeRef ex cut.1.1 cut.1.2).onError (releaseNode inodeRef leaf)
        match cut.2 with
        | none => removeLeafLoop data leaf first last n (i + 1) write (sub32 newEntryCount 1)
        | some kept =>
            storeExtent inodeRef data write kept
            removeLeafLoop data leaf first last n (i + 1) (write + 1) newEntryCount

/-- The part of `remove_leaf` that rewrites the leaf; returns the new entry
count and the first key left, or 0. -/
def rewriteLeaf (leaf : ExtentPathNode) (first last : ℕ) : M (ℕ × ℕ) := do
  let entryCount := leaf.header.entriesCount
  let (write, i, newEntryCount) ← removeLeafLoop inodeRef leaf.place leaf first last
    (entryCount - leaf.position) leaf.position leaf.position entryCount
  whenever (write ≠ i ∧ i < entryCount) do
    moveEntries inodeRef leaf.place write i (entryCount - i)
  storeHeader inodeRef leaf.place { leaf.header with entriesCount := u16 newEntryCount }
  if 0 < newEntryCount then do
    let firstAfter ← loadKey inodeRef leaf.place 0
    return (newEntryCount, firstAfter)
  else return (newEntryCount, 0)

def removeLeaf (path : ExtentSearchPath) (first last : ℕ) : M Unit := do
  let leaf ← path.node path.depth
  getForWrite inodeRef .removeLeaf leaf
  let (newEntryCount, firstAfter) ← rewriteLeaf inodeRef leaf first last
  finishNode inodeRef leaf
  whenever (leaf.position = 0 ∧ 0 < newEntryCount) do
    correctIndexes inodeRef path firstAfter path.depth
  if newEntryCount = 0 then
    if leaf.pblockOfNode = 0 then pure () else removeIndex inodeRef path (path.depth - 1)
  else pure ()

/-! ## Punching a hole into one extent -/

/-- The two ends that stay. -/
def splitAround (original : Ext4Extent) (first last : ℕ) : Ext4Extent × Ext4Extent :=
  let unwritten := extentIsUnwritten original
  let originalEnd := sub64 (original.firstBlock + extentGetActualLen original) 1
  let pre := extentSetActualLen original (u16 (sub32 first original.firstBlock))
  let suffix := extentStorePblock
    (extentSetActualLen ⟨u32 (last + 1), 0, 0, 0⟩ (u16 (sub64 originalEnd last)))
    (extentGetPblock original + sub32 (u32 (last + 1)) original.firstBlock)
  (if unwritten then extentMarkUnwritten pre else pre,
    if unwritten then extentMarkUnwritten suffix else suffix)

/-- Replace the entry at the cached position by two and count them. -/
def replaceByTwo (leaf : ExtentPathNode) (pre suffix : Ext4Extent) : M Unit := do
  let pos := leaf.position
  let entries := leaf.header.entriesCount
  whenever (pos + 1 < entries) do
    moveEntries inodeRef leaf.place (pos + 2) (pos + 1) (entries - pos - 1)
  storeExtent inodeRef leaf.place pos pre
  storeExtent inodeRef leaf.place (pos + 1) suffix
  storeHeader inodeRef leaf.place { leaf.header with entriesCount := u16 (entries + 1) }

def removeMiddleOfExtent (first last : ℕ) : M Unit := do
  let path ← ensureInsertRoom inodeRef first
  let leaf ← path.node path.depth
  let original := leaf.extent
  let originalEnd := sub64 (original.firstBlock + extentGetActualLen original) 1
  if leaf.header.maxEntriesCount ≤ leaf.header.entriesCount ∨ first ≤ original.firstBlock ∨
      originalEnd ≤ last then raise .eio
  else do
    let ends := splitAround original first last
    getForWrite inodeRef .removeMiddleOfExtent leaf
    replaceByTwo inodeRef leaf ends.1 ends.2
    finishNode inodeRef leaf
    removeBlocks inodeRef original first last

end EspLwext4
