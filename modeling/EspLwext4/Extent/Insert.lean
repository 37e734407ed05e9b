import EspLwext4.Extent.Search

/-!
# Inserting an extent

`merge_extent`, `split_full_node`, `grow_indepth`, `ensure_insert_room`,
`insert_new_extent` and `insert_extent`.
-/

namespace EspLwext4

open Prog

variable (inodeRef : InodeRef)

/-- Get a node for writing unless it is the inode root. -/
def getForWrite (site : Site) (node : ExtentPathNode) : M Unit :=
  if node.pblockOfNode = 0 then pure () else nodeBlockGet inodeRef site node.pblockOfNode

/-- Release a node got by `getForWrite` without marking it dirty. -/
def releaseNode (node : ExtentPathNode) : M Unit :=
  if node.pblockOfNode = 0 then pure () else blockSet inodeRef node.pblockOfNode

/-- The common end of every rewrite of a block: checksum, mark dirty, release. -/
def finishBlock (pblock : ℕ) : M Unit := do
  (setExtentBlockChecksum inodeRef (.block pblock) false).onError (blockSet inodeRef pblock)
  nodeBlockPut inodeRef pblock

/-- The common end of every rewrite of a path node: the root only becomes
dirty, a block is finished. -/
def finishNode (node : ExtentPathNode) : M Unit :=
  if node.pblockOfNode = 0 then setInodeDirty else finishBlock inodeRef node.pblockOfNode

/-! ## Merging -/

def canMerge (ex1 ex2 : Ext4Extent) : Bool :=
  let len1 := extentGetActualLen ex1
  let len2 := extentGetActualLen ex2
  -- an unwritten length of 32768 cannot be encoded
  let maxLen := if extentIsUnwritten ex1 then extInitMaxLen - 1 else extInitMaxLen
  if extentIsUnwritten ex1 ≠ extentIsUnwritten ex2 then false
  else if u32 (ex1.firstBlock + len1) ≠ ex2.firstBlock then false
  else if maxLen < len1 + len2 then false
  else decide (extentGetPblock ex1 + len1 = extentGetPblock ex2)

/-- What `merge_extent` makes of `left_ext`. -/
def mergedExtent (leftExt rightExt : Ext4Extent) : Ext4Extent :=
  let merged := extentSetActualLen leftExt
    (u16 (extentGetActualLen leftExt + extentGetActualLen rightExt))
  if extentIsUnwritten leftExt then extentMarkUnwritten merged else merged

/-- Merge `rightExt` into `leftExt`; a leaf that declares more than four entries
is taken for a block and written back at `targetPos`. -/
def mergeExtent (path : ExtentSearchPath) (leftExt rightExt : Ext4Extent) (targetPos : ℕ) :
    M Ext4Extent := do
  let leaf ← path.node path.depth
  let merged := mergedExtent leftExt rightExt
  if ext4ExtentRootMaxEntries < leaf.header.maxEntriesCount then do
    nodeBlockGet inodeRef .mergeExtent leaf.pblockOfNode
    storeExtent inodeRef (.block leaf.pblockOfNode) targetPos merged
    finishBlock inodeRef leaf.pblockOfNode
    return merged
  else return merged

/-! ## Inserting a separator -/

/-- The scan of `entry_insert_pos` with `n` entries to go. -/
def entryInsertPosLoop (data : Place) (firstBlock : ℕ) : (n pos : ℕ) → M ℕ
  | 0, pos => pure pos
  | n + 1, pos => do
      let key ← loadKey inodeRef data pos
      if firstBlock < key then pure pos else entryInsertPosLoop data firstBlock n (pos + 1)

/-- First position in an entry array whose `first_block` exceeds `firstBlock`. -/
def entryInsertPos (data : Place) (count firstBlock : ℕ) : M ℕ :=
  entryInsertPosLoop inodeRef data firstBlock count 0

def freeNewMetadataBlock {α : Type} (block : ℕ) (primaryError : Errno) : M α := do
  let _ ← (ballocFreeBlock inodeRef block).attempt
  raise primaryError

/-- A node that is to be changed must still be the one the path saw. -/
def recheckNode (node : ExtentPathNode) : M Unit := do
  let diskHeader ← loadHeader inodeRef (.block node.pblockOfNode)
  validateHeader inodeRef false diskHeader
  validateEntries inodeRef (.block node.pblockOfNode) diskHeader
  failIf (diskHeader.depth ≠ node.header.depth ∨
    diskHeader.entriesCount ≠ node.header.entriesCount ∨
    diskHeader.maxEntriesCount ≠ node.header.maxEntriesCount) .eio

/-- The entry before `pos` has the key `firstBlock`. -/
def keyBefore (data : Place) (pos firstBlock : ℕ) : M Bool :=
  if 0 < pos then do
    let key ← loadKey inodeRef data (pos - 1)
    return decide (key = firstBlock)
  else pure false

/-- Insert one child separator into a node that is known to have space. -/
def insertIndexEntry (path : ExtentSearchPath) (level firstBlock pblock : ℕ) : M Unit := do
  let node ← path.node level
  if node.header.depth = 0 ∨ node.header.maxEntriesCount ≤ node.header.entriesCount then
    raise .enospc
  else do
    let data := node.place
    getForWrite inodeRef .insertIndexEntry node
    whenever (node.pblockOfNode ≠ 0) do
      (recheckNode inodeRef node).onError (releaseNode inodeRef node)
    let pos ← entryInsertPos inodeRef data node.header.entriesCount firstBlock
    let duplicate ← keyBefore inodeRef data pos firstBlock
    if duplicate then do
      let _ ← (releaseNode inodeRef node).attempt
      raise .eexist
    else do
      whenever (pos < node.header.entriesCount) do
        moveEntries inodeRef data (pos + 1) pos (node.header.entriesCount - pos)
      storeIndex inodeRef data pos (indexStorePblock ⟨firstBlock, 0, 0, 0⟩ pblock)
      storeHeader inodeRef data
        { node.header with entriesCount := u16 (node.header.entriesCount + 1) }
      finishNode inodeRef node

/-! ## Splitting and growing -/

/-- `goto`-free cleanup of `split_full_node` and `grow_indepth`: run `cleanup`,
then give the new block back, then report `e`. -/
def abandonNewBlock {α : Type} (cleanup : M Unit) (block : ℕ) (e : Errno) : M α := do
  let _ ← cleanup.attempt
  freeNewMetadataBlock inodeRef block e

/-- Zero a new block and give it the header and the `n` entries from `src` on. -/
def fillNewNode (block : ℕ) (header : Ext4ExtentHeader) (source : Place) (src n : ℕ) :
    M Unit := do
  storeHeader inodeRef (.block block) header
  copyEntries inodeRef (.block block) 0 source src n

/-- The last part of `split_full_node`: cut the node to its first `mid` entries. -/
def shortenNode (node : ExtentPathNode) (mid : ℕ) : M Unit := do
  nodeBlockGet inodeRef .splitShorten node.pblockOfNode
  let source : Place := .block node.pblockOfNode
  storeHeader inodeRef source { node.header with entriesCount := u16 mid }
  clear inodeRef source (entryOff mid) ((node.header.entriesCount - mid) * ext4ExtentSize)
  finishBlock inodeRef node.pblockOfNode

/-- Split a full non-root node without inserting a data extent. The right node
is made reachable before the left node is shortened. -/
def splitFullNode (path : ExtentSearchPath) (level : ℕ) : M Unit := do
  let node ← path.node level
  let entries := node.header.entriesCount
  let mid := entries / 2
  if level = 0 ∨ node.pblockOfNode = 0 ∨ entries < 2 ∨ entries ≠ node.header.maxEntriesCount then
    raise .einval
  else do
    let parent ← path.node (level - 1)
    if parent.header.maxEntriesCount ≤ parent.header.entriesCount then raise .enospc
    else do
      let sourceBlock := node.pblockOfNode
      nodeBlockGet inodeRef .splitSource sourceBlock
      (recheckNode inodeRef node).onError (blockSet inodeRef sourceBlock)
      let newBlockAddr ← (ballocAllocBlock inodeRef inodeRef.lwext4.inodeToGoalBlock).onError
        (blockSet inodeRef sourceBlock)
      (transBlockGetNoread inodeRef newBlockAddr).orElse
        (abandonNewBlock inodeRef (blockSet inodeRef sourceBlock) newBlockAddr)
      clear inodeRef (.block newBlockAddr) 0 inodeRef.blockSize
      let rightEntries := entries - mid
      fillNewNode inodeRef newBlockAddr
        ⟨ext4ExtentMagic, u16 rightEntries, u16 (capacity inodeRef), node.header.depth, 0⟩
        (.block sourceBlock) mid rightEntries
      let firstRight ← loadKey inodeRef (.block newBlockAddr) 0
      (blockSet inodeRef sourceBlock).orElse
        (abandonNewBlock inodeRef (blockSet inodeRef newBlockAddr) newBlockAddr)
      (setExtentBlockChecksum inodeRef (.block newBlockAddr) false).orElse
        (abandonNewBlock inodeRef (blockSet inodeRef newBlockAddr) newBlockAddr)
      (nodeBlockPut inodeRef newBlockAddr).orElse (freeNewMetadataBlock inodeRef newBlockAddr)
      (insertIndexEntry inodeRef path (level - 1) firstRight newBlockAddr).orElse
        (freeNewMetadataBlock inodeRef newBlockAddr)
      shortenNode inodeRef node mid

/-- Key of the only entry of a grown root. -/
def firstLogicalBlockOf (oldEntries : ℕ) : M ℕ :=
  if 0 < oldEntries then do
    let firstExtent ← loadExtent inodeRef .root 0
    return firstExtent.firstBlock
  else pure 0

/-- Move the root's entries into a new block and make it the only child. -/
def growIndepth : M Unit := do
  let oldHeader ← loadHeader inodeRef .root
  if ext4ExtentMaxDepth ≤ oldHeader.depth then raise .efbig
  else do
    let newBlockAddr ← ballocAllocBlock inodeRef inodeRef.lwext4.inodeToGoalBlock
    (transBlockGetNoread inodeRef newBlockAddr).onError (ballocFreeBlock inodeRef newBlockAddr)
    clear inodeRef (.block newBlockAddr) 0 inodeRef.blockSize
    let oldEntries := oldHeader.entriesCount
    let firstLogicalBlock ← firstLogicalBlockOf inodeRef oldEntries
    fillNewNode inodeRef newBlockAddr
      ⟨ext4ExtentMagic, u16 oldEntries, u16 (capacity inodeRef), oldHeader.depth, 0⟩
      .root 0 oldEntries
    (setExtentBlockChecksum inodeRef (.block newBlockAddr) false).orElse
      (abandonNewBlock inodeRef (blockSet inodeRef newBlockAddr) newBlockAddr)
    (nodeBlockPut inodeRef newBlockAddr).onError (ballocFreeBlock inodeRef newBlockAddr)
    let rootHeader ← loadHeader inodeRef .root
    storeHeader inodeRef .root { rootHeader with
      entriesCount := 1, maxEntriesCount := ext4ExtentRootMaxEntries,
      depth := u16 (oldHeader.depth + 1) }
    clear inodeRef .root ext4ExtentHeaderSize (60 - ext4ExtentHeaderSize)
    storeIndex inodeRef .root 0 (indexStorePblock ⟨firstLogicalBlock, 0, 0, 0⟩ newBlockAddr)
    setInodeDirty

/-- First level from `level` on, at most `n` levels further, whose node is full. -/
def firstFullLevel (path : ExtentSearchPath) : (n level : ℕ) → M (Option ℕ)
  | 0, _ => pure none
  | n + 1, level => do
      let node ← path.node level
      if node.header.maxEntriesCount ≤ node.header.entriesCount then pure (some level)
      else firstFullLevel path n (level + 1)

/-- The attempts of `ensure_insert_room`. Structural changes are followed by a
fresh lookup. -/
def ensureInsertRoomLoop (firstBlock : ℕ) : (attempts : ℕ) → M ExtentSearchPath
  | 0 => raise .eio
  | attempts + 1 => do
      let path ← findExtent inodeRef firstBlock
      let root ← path.node 0
      if root.header.maxEntriesCount ≤ root.header.entriesCount then do
        growIndepth inodeRef
        ensureInsertRoomLoop firstBlock attempts
      else
        match ← firstFullLevel path path.depth 1 with
        | some level =>
            splitFullNode inodeRef path level
            ensureInsertRoomLoop firstBlock attempts
        | none => return path

/-- Make every node on the insertion path non-full before adding the extent. -/
def ensureInsertRoom (firstBlock : ℕ) : M ExtentSearchPath :=
  ensureInsertRoomLoop inodeRef firstBlock (ext4ExtentMaxDepth * 2 + 4)

/-! ## Correcting separators -/

def writeIndexAt (node : ExtentPathNode) (pos : ℕ) (index : Ext4ExtentIndex) : M Unit := do
  getForWrite inodeRef .writeIndexAt node
  storeIndex inodeRef node.place pos index
  finishNode inodeRef node

def correctIndexes (path : ExtentSearchPath) (newFirstBlock : ℕ) : (childLevel : ℕ) → M Unit
  | 0 => pure ()
  | parent + 1 => do
      let parentNode ← path.node parent
      writeIndexAt inodeRef parentNode parentNode.position
        { parentNode.index with firstBlock := newFirstBlock }
      if parentNode.position ≠ 0 then pure ()
      else correctIndexes path newFirstBlock parent

/-! ## Inserting an extent -/

/-- Slot of a new extent in a leaf, from the cached position. -/
def newExtentPos (node : ExtentPathNode) (newExtent : Ext4Extent) : ℕ :=
  if node.haveExtent ∧ node.position = 0 ∧ newExtent.firstBlock < node.extent.firstBlock then 0
  else node.position + 1

/-- Shift the leaf open at `pos`, store the extent and count it. -/
def placeExtent (node : ExtentPathNode) (pos : ℕ) (newExtent : Ext4Extent) : M Unit := do
  whenever (pos < node.header.entriesCount) do
    moveEntries inodeRef node.place (pos + 1) pos (node.header.entriesCount - pos)
  storeExtent inodeRef node.place pos newExtent
  storeHeader inodeRef node.place
    { node.header with entriesCount := u16 (node.header.entriesCount + 1) }

/-- `reinsert` is the recursive call of `insert_extent`. -/
def insertNewExtent (reinsert : ℕ → Ext4Extent → M Unit) (path : ExtentSearchPath)
    (newExtent : Ext4Extent) : M Unit := do
  let node ← path.node path.depth
  if path.depth = 0 then
    if node.header.entriesCount = 0 then do
      storeExtent inodeRef .root 0 newExtent
      storeHeader inodeRef .root { node.header with entriesCount := 1 }
      setInodeDirty
    else if node.header.entriesCount = node.header.maxEntriesCount then do
      growIndepth inodeRef
      reinsert newExtent.firstBlock newExtent
    else do
      placeExtent inodeRef { node with pblockOfNode := 0 } (newExtentPos node newExtent) newExtent
      setInodeDirty
  else do
    nodeBlockGet inodeRef .insertNewExtent node.pblockOfNode
    let pos := newExtentPos node newExtent
    placeExtent inodeRef node pos newExtent
    finishBlock inodeRef node.pblockOfNode
    if pos = 0 then correctIndexes inodeRef path newExtent.firstBlock path.depth
    else pure ()

/-- Store a merged extent in the root, where `merge_extent` leaves it out. -/
def storeMergedInRoot (leaf : ExtentPathNode) (pos : ℕ) (merged : Ext4Extent) : M Unit :=
  whenever (leaf.pblockOfNode = 0) do
    storeExtent inodeRef .root pos merged
    setInodeDirty

/-- If `c`, load the entry at `pos`, order it with the new extent by `pair` and
merge the two at `pos` when they can be. -/
def mergeIf (path : ExtentSearchPath) (leaf : ExtentPathNode) (c : Prop) [Decidable c]
    (pos : ℕ) (pair : Ext4Extent → Ext4Extent × Ext4Extent) : M Bool :=
  if c then do
    let other ← nodeGetExtent inodeRef leaf pos
    if canMerge (pair other).1 (pair other).2 then do
      let merged ← mergeExtent inodeRef path (pair other).1 (pair other).2 pos
      storeMergedInRoot inodeRef leaf pos merged
      return true
    else return false
  else pure false

/-- Try to merge the new extent with the entry at `pos + 1`, then with the one
at `pos - 1`; `true` when that was done. -/
def mergeWithNeighbour (path : ExtentSearchPath) (leaf : ExtentPathNode)
    (newExtent : Ext4Extent) : M Bool := do
  let ex := leaf.extent
  let pos := leaf.position
  let lastPos := leaf.header.entriesCount - 1
  let mergedNext ←
    mergeIf inodeRef path leaf
      (pos < lastPos ∧ u32 (ex.firstBlock + extentGetActualLen ex) < newExtent.firstBlock)
      (pos + 1) fun next => (newExtent, next)
  if mergedNext then return true
  else
    mergeIf inodeRef path leaf
      (0 < pos ∧ u32 (newExtent.firstBlock + extentGetActualLen newExtent) < ex.firstBlock)
      (pos - 1) fun prev => (prev, newExtent)

/-- The last part of `insert_extent`: place the extent in the leaf, after making
room when the leaf is full. -/
def insertWithRoom (reinsert : ℕ → Ext4Extent → M Unit) (path : ExtentSearchPath)
    (leaf : ExtentPathNode) (firstBlock : ℕ) (newExtent : Ext4Extent) : M Unit :=
  if leaf.header.entriesCount < leaf.header.maxEntriesCount then
    insertNewExtent inodeRef reinsert path newExtent
  else do
    let path ← ensureInsertRoom inodeRef firstBlock
    let leaf ← path.node path.depth
    if leaf.header.maxEntriesCount ≤ leaf.header.entriesCount then raise .eio
    else insertNewExtent inodeRef reinsert path newExtent

/-- The body of `insert_extent`. -/
def insertExtentBody (reinsert : ℕ → Ext4Extent → M Unit) (firstBlock : ℕ)
    (newExtent : Ext4Extent) : M Unit := do
  let path ← findExtent inodeRef firstBlock
  let leaf ← path.node path.depth
  if leaf.header.entriesCount = 0 then insertNewExtent inodeRef reinsert path newExtent
  else if leaf.haveExtent then do
    let ex := leaf.extent
    if inExtent ex firstBlock then raise .eexist
    else if canMerge ex newExtent then do
      let merged ← mergeExtent inodeRef path ex newExtent leaf.position
      storeMergedInRoot inodeRef leaf leaf.position merged
    else do
      let merged ← mergeWithNeighbour inodeRef path leaf newExtent
      if merged then pure ()
      else insertWithRoom inodeRef reinsert path leaf firstBlock newExtent
  else insertWithRoom inodeRef reinsert path leaf firstBlock newExtent

/-- `insert_extent`; `calls` bounds the recursion through `insert_new_extent`,
which calls it again after growing a full root. -/
def insertExtent : (calls : ℕ) → (firstBlock : ℕ) → Ext4Extent → M Unit
  | 0, _, _ => crash .outOfFuel
  | calls + 1, firstBlock, newExtent =>
      insertExtentBody inodeRef (insertExtent calls) firstBlock newExtent

end EspLwext4
