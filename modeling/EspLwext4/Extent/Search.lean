import EspLwext4.Extent.Volume

/-!
# Searching and validating

`binsearch_extent`, `binsearch_idx`, the `validate_*` functions, the block
checksums, `find_extent` and `find_next_extent`. A node pointer of the C code is
the `Place` it points into.
-/

namespace EspLwext4

open Prog

/-! ## Paths -/

structure ExtentPathNode where
  header : Ext4ExtentHeader
  index : Ext4ExtentIndex
  extent : Ext4Extent
  haveIndex : Bool
  haveExtent : Bool
  position : ℕ
  /-- leaf: resolved data block; index: child block -/
  pblock : ℕ
  /-- 0 means the inode root node -/
  pblockOfNode : ℕ
deriving DecidableEq

/-- The levels of `path` that were filled in, root first. -/
structure ExtentSearchPath where
  depth : ℕ
  maxdepth : ℕ
  path : List ExtentPathNode
deriving DecidableEq

/-- `path->path[level]`; the array has `EXT4_EXTENT_MAX_DEPTH + 1` levels. -/
def ExtentSearchPath.node (path : ExtentSearchPath) (level : ℕ) : M ExtentPathNode :=
  match path.path[level]? with
  | some node => pure node
  | none => crash .outOfBounds

/-- Fill in the next level of the array. -/
def ExtentSearchPath.push (path : ExtentSearchPath) (node : ExtentPathNode) :
    M ExtentSearchPath :=
  if path.path.length < ext4ExtentMaxDepth + 1 then
    pure { path with path := path.path ++ [node] }
  else crash .outOfBounds

def ExtentPathNode.place (node : ExtentPathNode) : Place := Place.of node.pblockOfNode

def zeroExtent : Ext4Extent := ⟨0, 0, 0, 0⟩
def zeroIndex : Ext4ExtentIndex := ⟨0, 0, 0, 0⟩

variable (inodeRef : InodeRef)

/-! ## Binary searches -/

/-- The loop of `binsearch_extent`; returns the final `l`. -/
def binsearchExtentLoop (data : Place) (lblock : ℕ) : ℕ → ℕ → ℕ → M ℕ
  | 0, l, r => if l ≤ r then crash .outOfFuel else pure l
  | fuel + 1, l, r =>
      if l ≤ r then do
        let m := l + (r - l) / 2
        let ext ← loadExtent inodeRef data m
        if lblock < ext.firstBlock then binsearchExtentLoop data lblock fuel l (m - 1)
        else binsearchExtentLoop data lblock fuel (m + 1) r
      else pure l

/-- Binary search for the extent containing (or preceding) `lblock`. -/
def binsearchExtent (data : Place) (header : Ext4ExtentHeader) (lblock : ℕ) :
    M (Ext4Extent × ℕ) :=
  if header.entriesCount = 0 then do
    let extent ← loadExtent inodeRef data 0
    return (extent, 0)
  else do
    let l ← binsearchExtentLoop inodeRef data lblock header.entriesCount 1
      (header.entriesCount - 1)
    let pos := l - 1
    let extent ← loadExtent inodeRef data pos
    return (extent, pos)

def binsearchIdxLoop (data : Place) (lblock : ℕ) : ℕ → ℕ → ℕ → M ℕ
  | 0, l, r => if l ≤ r then crash .outOfFuel else pure l
  | fuel + 1, l, r =>
      if l ≤ r then do
        let m := l + (r - l) / 2
        let index ← loadIndex inodeRef data m
        if lblock < index.firstBlock then
          if m = 0 then pure l else binsearchIdxLoop data lblock fuel l (m - 1)
        else binsearchIdxLoop data lblock fuel (m + 1) r
      else pure l

/-- Binary search for the index governing `lblock`; `none` when there is none.
Entry zero is the leftmost child even when its key is greater than `lblock`. -/
def binsearchIdx (data : Place) (header : Ext4ExtentHeader) (lblock : ℕ) : M (Option ℕ) :=
  if header.entriesCount = 0 then pure none
  else do
    let l ← binsearchIdxLoop inodeRef data lblock header.entriesCount 1
      (header.entriesCount - 1)
    if l = 0 then pure none else pure (some (l - 1))

/-! ## Validation -/

def capacity : ℕ := (inodeRef.blockSize - ext4ExtentHeaderSize) / ext4ExtentSize

def validateHeader (isRoot : Bool) (header : Ext4ExtentHeader) : M Unit :=
  let cap := if isRoot then ext4ExtentRootMaxEntries else capacity inodeRef
  if header.magic ≠ ext4ExtentMagic ∨ ext4ExtentMaxDepth < header.depth then raise .eio
  else if header.maxEntriesCount = 0 ∨ header.maxEntriesCount < header.entriesCount ∨
      cap < header.maxEntriesCount then raise .eio
  else pure ()

/-- The range tests on one leaf extent. -/
def extentInRange (extent : Ext4Extent) : Bool :=
  let len := extentGetActualLen extent
  let physical := extentGetPblock extent
  !(decide (len = 0) || decide (uint32Max + 1 < extent.firstBlock + len) ||
    decide (physical = 0) || decide (inodeRef.blocksCnt ≤ physical) ||
    decide (inodeRef.blocksCnt - physical < len))

/-- The range test on one child pointer. -/
def childInRange (index : Ext4ExtentIndex) : Bool :=
  let child := indexGetPblock index
  !(decide (child = 0) || decide (inodeRef.blocksCnt ≤ child))

/-- The loop of `validate_entries` with `n` entries to go. -/
def validateEntriesLoop (data : Place) (header : Ext4ExtentHeader) :
    (n i previousEnd previousKey : ℕ) → M Unit
  | 0, _, _, _ => pure ()
  | n + 1, i, previousEnd, previousKey =>
      if header.depth = 0 then do
        let extent ← loadExtent inodeRef data i
        if extentInRange inodeRef extent = false then raise .eio
        else if 0 < i ∧ extent.firstBlock < previousEnd then raise .eio
        else
          validateEntriesLoop data header n (i + 1)
            (extent.firstBlock + extentGetActualLen extent) previousKey
      else do
        let index ← loadIndex inodeRef data i
        if childInRange inodeRef index = false ∨ (0 < i ∧ index.firstBlock ≤ previousKey) then
          raise .eio
        else validateEntriesLoop data header n (i + 1) previousEnd index.firstBlock

/-- The notes on the entries of a node that `validate_entries` accepted. -/
def entryEvents (data : Bytes) (header : Ext4ExtentHeader) : List Event :=
  if header.depth = 0 then
    (extentLayout.records data header.entriesCount).map fun e =>
      .checked (extentGetPblock e) (extentGetActualLen e)
  else (indexLayout.records data header.entriesCount).map fun x => .checked (indexGetPblock x) 1

def validateEntries (data : Place) (header : Ext4ExtentHeader) : M Unit := do
  validateEntriesLoop inodeRef data header header.entriesCount 0 0 0
  update fun s => s.logAll (entryEvents (s.bytes data) header)

/-- The extent before `pos` ends at or before `current`. -/
def checkPreviousExtent (data : Place) (pos : ℕ) (current : Ext4Extent) : M Unit :=
  whenever (0 < pos) do
    let previous ← loadExtent inodeRef data (pos - 1)
    failIf (current.firstBlock < previous.firstBlock + extentGetActualLen previous) .eio

/-- The extent behind `pos`, if any, starts at or behind the end of `current`. -/
def checkNextExtent (data : Place) (entriesCount pos : ℕ) (current : Ext4Extent) : M Unit :=
  whenever (pos + 1 < entriesCount) do
    let next ← loadExtent inodeRef data (pos + 1)
    failIf (next.firstBlock < current.firstBlock + extentGetActualLen current) .eio

def checkPreviousIndex (data : Place) (pos : ℕ) (current : Ext4ExtentIndex) : M Unit :=
  whenever (0 < pos) do
    let previous ← loadIndex inodeRef data (pos - 1)
    failIf (current.firstBlock ≤ previous.firstBlock) .eio

def checkNextIndex (data : Place) (entriesCount pos : ℕ) (current : Ext4ExtentIndex) : M Unit :=
  whenever (pos + 1 < entriesCount) do
    let next ← loadIndex inodeRef data (pos + 1)
    failIf (next.firstBlock ≤ current.firstBlock) .eio

/-- Validate the entry selected by a lookup and the ordering boundaries on
either side of it. -/
def validateSelectedEntry (data : Place) (header : Ext4ExtentHeader) (pos : ℕ) : M Unit :=
  if header.entriesCount ≤ pos then raise .eio
  else if header.depth = 0 then do
    let current ← loadExtent inodeRef data pos
    failIf (extentInRange inodeRef current = false) .eio
    checkPreviousExtent inodeRef data pos current
    checkNextExtent inodeRef data header.entriesCount pos current
    update (·.log (.checked (extentGetPblock current) (extentGetActualLen current)))
  else do
    let current ← loadIndex inodeRef data pos
    failIf (childInRange inodeRef current = false) .eio
    checkPreviousIndex inodeRef data pos current
    checkNextIndex inodeRef data header.entriesCount pos current
    update (·.log (.checked (indexGetPblock current) 1))

/-! ## Block checksums -/

def le32Bytes (v : ℕ) : List UInt8 :=
  [UInt8.ofNat v, UInt8.ofNat (v / 256), UInt8.ofNat (v / 65536), UInt8.ofNat (v / 16777216)]

/-- `extent_block_checksum` over the first `tailOffset` bytes of a block. -/
def extentBlockChecksum (data : Bytes) (tailOffset : ℕ) : ℕ :=
  let crc := inodeRef.lwext4.crc32c
  let c₀ := crc 0xFFFFFFFF inodeRef.uuid
  let c₁ := crc c₀ (le32Bytes inodeRef.index)
  let c₂ := crc c₁ (le32Bytes inodeRef.generation)
  (crc c₂ ((List.range tailOffset).map data)).toNat

/-- Where the checksum of a node lies: right behind the declared entries. -/
def tailOffset (header : Ext4ExtentHeader) : ℕ :=
  ext4ExtentHeaderSize + header.maxEntriesCount * ext4ExtentSize

def verifyExtentBlockChecksum (data : Place) : M Unit :=
  if inodeRef.metadataCsum = false then pure ()
  else do
    let header ← loadHeader inodeRef data
    if header.magic ≠ ext4ExtentMagic then raise .eio
    else
      let tail := tailOffset header
      if inodeRef.blockSize < tail ∨ inodeRef.blockSize < tail + 4 then raise .eio
      else do
        let expected ← peek inodeRef data 0 tail (extentBlockChecksum inodeRef · tail)
        let stored ← peek inodeRef data tail 4 (Bytes.readLe32 · tail)
        if stored = expected then pure () else raise .eio

def setExtentBlockChecksum (data : Place) (isRoot : Bool) : M Unit :=
  if isRoot then pure ()
  else if inodeRef.metadataCsum = false then pure ()
  else do
    let header ← loadHeader inodeRef data
    if header.magic ≠ ext4ExtentMagic then raise .einval
    else
      let tail := tailOffset header
      if inodeRef.blockSize < tail ∨ inodeRef.blockSize < tail + 4 then raise .eio
      else do
        let checksum ← peek inodeRef data 0 tail (extentBlockChecksum inodeRef · tail)
        poke inodeRef data tail 4 (Bytes.writeLe32 · tail checksum)

/-! ## The search -/

/-- `lblock` lies in the extent, computed in `uint32_t`. -/
def inExtent (extent : Ext4Extent) (lblock : ℕ) : Bool :=
  decide (extent.firstBlock ≤ lblock) &&
    decide (lblock < u32 (extent.firstBlock + extentGetActualLen extent))

/-- The descent of `find_extent`: `depth` levels to go, standing on the node at
`nodeData`, with the block of the previous step still held. -/
def findExtentLoop (lblock : ℕ) : (depth : ℕ) → (nodeData : Place) → Ext4ExtentHeader →
    (pblockOfNode : ℕ) → (held : Option ℕ) → ExtentSearchPath →
    M (Place × Ext4ExtentHeader × ℕ × Option ℕ × ExtentSearchPath)
  | 0, nodeData, header, pblockOfNode, held, path =>
      pure (nodeData, header, pblockOfNode, held, path)
  | depth + 1, nodeData, header, pblockOfNode, held, path => do
      match ← binsearchIdx inodeRef nodeData header lblock with
      | none => (raise .enoent : M _).onError (releaseHeld inodeRef held)
      | some pos =>
          (validateSelectedEntry inodeRef nodeData header pos).onError
            (releaseHeld inodeRef held)
          let index ← loadIndex inodeRef nodeData pos
          let nextBlock := indexGetPblock index
          let path ← path.push {
            header := header, index := index, extent := zeroExtent, haveIndex := true,
            haveExtent := false, position := pos, pblock := nextBlock,
            pblockOfNode := pblockOfNode }
          (nodeBlockGet inodeRef .findExtent nextBlock).onError (releaseHeld inodeRef held)
          ((verifyExtentBlockChecksum inodeRef (.block nextBlock)).onError
            (blockSet inodeRef nextBlock)).onError (releaseHeld inodeRef held)
          let _ ← (releaseHeld inodeRef held).attempt
          let header ← loadHeader inodeRef (.block nextBlock)
          (validateHeader inodeRef false header).onError (blockSet inodeRef nextBlock)
          if header.depth ≠ depth then
            (raise .eio : M _).onError (blockSet inodeRef nextBlock)
          else
            findExtentLoop lblock depth (.block nextBlock) header nextBlock (some nextBlock)
              { path with depth := path.depth + 1 }

/-- The last step of `find_extent`, on the leaf. -/
def findExtentLeaf (lblock : ℕ) (nodeData : Place) (header : Ext4ExtentHeader)
    (pblockOfNode : ℕ) (held : Option ℕ) (path : ExtentSearchPath) : M ExtentSearchPath := do
  let (extent, position) ← binsearchExtent inodeRef nodeData header lblock
  if 0 < header.entriesCount then
    let r ← (validateSelectedEntry inodeRef nodeData header position).attempt
    let _ ← (releaseHeld inodeRef held).attempt
    match r with
    | .error e => raise e
    | .ok _ =>
        path.push {
          header := header, index := zeroIndex, extent := extent, haveIndex := false,
          haveExtent := true, position := position,
          pblock := if inExtent extent lblock then
              extentGetPblock extent + (lblock - extent.firstBlock) else 0,
          pblockOfNode := pblockOfNode }
  else
    let _ ← (releaseHeld inodeRef held).attempt
    path.push {
      header := header, index := zeroIndex, extent := extent, haveIndex := false,
      haveExtent := false, position := position, pblock := 0, pblockOfNode := pblockOfNode }

def findExtent (lblock : ℕ) : M ExtentSearchPath := do
  let header ← loadHeader inodeRef .root
  validateHeader inodeRef true header
  validateEntries inodeRef .root header
  let (nodeData, header, pblockOfNode, held, path) ←
    findExtentLoop inodeRef lblock header.depth .root header 0 none ⟨0, header.depth, []⟩
  findExtentLeaf inodeRef lblock nodeData header pblockOfNode held path

/-! ## Neighbours -/

/-- Load one extent of the leaf a path ends in. -/
def nodeGetExtent (node : ExtentPathNode) (pos : ℕ) : M Ext4Extent :=
  if node.pblockOfNode = 0 then loadExtent inodeRef .root pos
  else do
    nodeBlockGet inodeRef .nodeGetExtent node.pblockOfNode
    let out ← loadExtent inodeRef (.block node.pblockOfNode) pos
    blockSet inodeRef node.pblockOfNode
    return out

def nodeGetIndex (node : ExtentPathNode) (pos : ℕ) : M Ext4ExtentIndex :=
  if node.pblockOfNode = 0 then loadIndex inodeRef .root pos
  else do
    nodeBlockGet inodeRef .nodeGetIndex node.pblockOfNode
    let out ← loadIndex inodeRef (.block node.pblockOfNode) pos
    blockSet inodeRef node.pblockOfNode
    return out

/-- The chain of checks `leftmost_extent_below` makes on a node it holds. -/
def acceptNode (pblock expectedDepth : ℕ) : M Ext4ExtentHeader := do
  verifyExtentBlockChecksum inodeRef (.block pblock)
  let header ← loadHeader inodeRef (.block pblock)
  validateHeader inodeRef false header
  failIf (header.depth ≠ expectedDepth) .eio
  validateEntries inodeRef (.block pblock) header
  return header

/-- One node of the walk of `leftmost_extent_below`: its header if it is
acceptable and holds an entry. -/
def leftmostNode (pblock expectedDepth : ℕ) : M Ext4ExtentHeader := do
  nodeBlockGet inodeRef .leftmostExtentBelow pblock
  let header ← (acceptNode inodeRef pblock expectedDepth).onError (blockSet inodeRef pblock)
  if header.entriesCount = 0 then do
    blockSet inodeRef pblock
    raise .eio
  else return header

def leftmostExtentBelow (start : Ext4ExtentIndex) : (expectedDepth : ℕ) → M Ext4Extent
  | 0 => do
      let pblock := indexGetPblock start
      let _ ← leftmostNode inodeRef pblock 0
      let out ← loadExtent inodeRef (.block pblock) 0
      blockSet inodeRef pblock
      return out
  | expectedDepth + 1 => do
      let pblock := indexGetPblock start
      let _ ← leftmostNode inodeRef pblock (expectedDepth + 1)
      let next ← loadIndex inodeRef (.block pblock) 0
      blockSet inodeRef pblock
      leftmostExtentBelow next expectedDepth

/-- The climb of `find_next_extent` from `level` to the root. -/
def findNextExtentLoop (path : ExtentSearchPath) : (level : ℕ) → M Ext4Extent
  | 0 => raise .enoent
  | level + 1 => do
      let parent ← path.node level
      if parent.position + 1 < parent.header.entriesCount then do
        let sibling ← nodeGetIndex inodeRef parent (parent.position + 1)
        if parent.header.depth = 0 then raise .eio
        else leftmostExtentBelow inodeRef sibling (u16 (parent.header.depth - 1))
      else findNextExtentLoop path level

def findNextExtent (path : ExtentSearchPath) : M Ext4Extent := do
  let leaf ← path.node path.depth
  if leaf.position + 1 < leaf.header.entriesCount then
    nodeGetExtent inodeRef leaf (leaf.position + 1)
  else findNextExtentLoop inodeRef path path.depth

end EspLwext4
