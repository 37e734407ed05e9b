import EspLwext4.Extent.Descent

/-!
# No access out of bounds

Between a search and the rewrite that uses it, a node is trusted for what its
cached path node says: the header passed `validate_header`, and the position is
one of its entries. `PathSane` collects these facts. They do not mention the
disk, so they survive every write, and they are all that the bounds of the
rewriting functions rest on.
-/

namespace EspLwext4

open Prog

variable (inodeRef : InodeRef)

/-! ## Sane paths -/

/-- The cached facts that bound the accesses through a path node. -/
structure NodeSane (node : ExtentPathNode) : Prop where
  headerOk : HeaderOk inodeRef node.place node.header
  position : node.position < node.header.entriesCount ∨
    node.position = 0 ∧ node.header.entriesCount = 0

structure PathSane (path : ExtentSearchPath) : Prop where
  length : path.path.length = path.depth + 1
  depth : path.depth ≤ ext4ExtentMaxDepth
  sane : ∀ node ∈ path.path, NodeSane inodeRef node
  index : ∀ level < path.depth, ∀ node, path.path[level]? = some node →
    node.position < node.header.entriesCount
  root : ∀ node, path.path[0]? = some node → node.pblockOfNode = 0

section Paths

variable {inodeRef} {D : Disk} {lblock d b d' b' : ℕ} {ns : List ExtentPathNode}
variable {path : ExtentSearchPath} {leaf node : ExtentPathNode}

theorem Levels.mem (h : Levels inodeRef D lblock d b ns d' b') :
    ∀ n ∈ ns, ∃ d b, LevelOk inodeRef D lblock d b n := by
  induction h with
  | nil => simp
  | cons hl _ ih =>
      intro n hn
      rcases List.mem_cons.mp hn with rfl | hn
      · exact ⟨_, _, hl⟩
      · exact ih n hn

theorem LevelOk.sane (h : LevelOk inodeRef D lblock d b node) : NodeSane inodeRef node :=
  ⟨by rw [ExtentPathNode.place, h.pblockOfNode, h.header]; exact h.headerOk, Or.inl h.chosen.lt⟩

theorem LeafOk.sane (h : LeafOk inodeRef D lblock b leaf) : NodeSane inodeRef leaf := by
  refine ⟨by rw [ExtentPathNode.place, h.pblockOfNode, h.header]; exact h.headerOk, ?_⟩
  rcases Nat.eq_zero_or_pos leaf.header.entriesCount with h0 | h0
  · exact Or.inr ⟨h.empty h0, h0⟩
  · exact Or.inl (h.chosen h0).lt

/-- Whatever the disk holds, a path that was found is sane. -/
theorem PathOk.sane (h : PathOk inodeRef D lblock path ns leaf) : PathSane inodeRef path := by
  have hlen := h.levels.length
  refine ⟨by rw [h.nodes, h.depth]; simp, ?_, ?_, ?_, ?_⟩
  · rw [h.depth]
    cases hns : ns with
    | nil => exact Nat.zero_le _
    | cons n ns =>
        obtain ⟨e, he, hl, -⟩ := (hns ▸ h.levels).of_cons
        have := hl.headerOk.depth
        rw [hl.depth] at this
        rw [← hns]
        omega
  · intro node hnode
    rw [h.nodes] at hnode
    rcases List.mem_append.mp hnode with hn | hn
    · obtain ⟨_, _, hl⟩ := h.levels.mem node hn
      exact hl.sane
    · rw [List.mem_singleton.mp hn]
      exact h.leafOk.sane
  · intro level hlevel node hnode
    rw [h.depth] at hlevel
    rw [h.nodes, List.getElem?_append_left hlevel] at hnode
    obtain ⟨_, _, hl⟩ := h.levels.mem node (List.mem_of_getElem? hnode)
    exact hl.chosen.lt
  · intro node hnode
    rw [h.nodes] at hnode
    cases hns : ns with
    | nil =>
        have hl := (hns ▸ h.levels).of_nil.2
        rw [hns] at hnode
        obtain rfl : leaf = node := by simpa using hnode
        exact hl.symm
    | cons n ns =>
        obtain ⟨e, -, hl, -⟩ := (hns ▸ h.levels).of_cons
        rw [hns] at hnode
        obtain rfl : n = node := by simpa using hnode
        exact hl.pblockOfNode

/-- The selected extent of a path that was found passed the range tests. -/
theorem PathOk.extentInRange (h : PathOk inodeRef D lblock path ns leaf)
    (h0 : 0 < leaf.header.entriesCount) : extentInRange inodeRef leaf.extent = true := by
  have hs := (h.leafOk.selected h0).2
  rw [if_pos (by rw [h.leafOk.header]; exact h.leafOk.depth), ← h.leafOk.extent] at hs
  exact hs.1

/-- `ex_last` of an extent that passed the range tests. -/
theorem lastBlock_eq {e : Ext4Extent} (h : EspLwext4.extentInRange inodeRef e = true) :
    sub32 (u32 (e.firstBlock + extentGetActualLen e)) 1 =
      e.firstBlock + extentGetActualLen e - 1 := by
  obtain ⟨h₁, h₂, -, -⟩ := extentInRange_iff.mp h
  exact sub32_u32_one (by omega) h₂

/-- Reading a level of the path. -/
theorem wp_node {Q : ExtentPathNode → St → Prop} {E : Errno → St → Prop} {s : St} {level : ℕ} :
    wp (path.node level) Q E s ↔ ∃ node, path.path[level]? = some node ∧ Q node s := by
  unfold ExtentSearchPath.node
  cases path.path[level]? with
  | none => simp
  | some node => simp

theorem node_eq {s : St} {level : ℕ} (h : path.path[level]? = some node) :
    path.node level s = .ok node s := by
  unfold ExtentSearchPath.node
  rw [h]
  rfl

theorem PathSane.bind_node {α : Type} {R : St → St → Prop} (h : PathSane inodeRef path) {s : St} {level : ℕ}
    (hl : level ≤ path.depth) {f : ExtentPathNode → M α}
    (hf : ∀ node, path.path[level]? = some node → NodeSane inodeRef node → Keeps R (f node) s) :
    Keeps R (path.node level >>= f) s := by
  have hlt : level < path.path.length := by rw [h.length]; omega
  have hget : path.path[level]? = some path.path[level] := List.getElem?_eq_getElem hlt
  unfold Keeps
  rw [wp_bind, wp_node]
  exact ⟨_, hget, hf _ hget (h.sane _ (List.getElem_mem hlt))⟩

end Paths

namespace NodeSane

variable {inodeRef} {node : ExtentPathNode} {n : ℕ}

theorem fits (h : NodeSane inodeRef node) (hn : n ≤ node.header.maxEntriesCount) :
    inodeRef.Fits node.place n :=
  inodeRef.fits_of_le (Nat.le_trans hn h.headerOk.max)

/-- Every place has room for four entries, however few its node declares. -/
theorem fits_small (hn : n ≤ 4) : inodeRef.Fits node.place n := by
  have := inodeRef.capacity_ge
  refine inodeRef.fits_of_le (Nat.le_trans hn ?_)
  cases node.place with
  | root => exact Nat.le_refl 4
  | block b => show 4 ≤ capacity inodeRef; omega

theorem count_lt (h : NodeSane inodeRef node) : node.header.maxEntriesCount < 65536 := by
  have h₁ := h.headerOk.max
  have h₂ := inodeRef.capacity_le
  cases hp : node.place with
  | root => rw [hp] at h₁; have h₁ : _ ≤ 4 := h₁; omega
  | block b => rw [hp] at h₁; have h₁ : _ ≤ capacity inodeRef := h₁; omega

theorem fits_block (h : NodeSane inodeRef node) (b : ℕ) (hn : n ≤ node.header.maxEntriesCount) :
    inodeRef.Fits (.block b) n := by
  have h₁ := h.headerOk.max
  have h₂ := inodeRef.capacity_ge
  refine inodeRef.fits_of_le (Nat.le_trans hn (Nat.le_trans h₁ ?_))
  cases node.place with
  | root => show 4 ≤ capacity inodeRef; omega
  | block b' => exact Nat.le_refl _

end NodeSane

/-! ## The parts every rewrite is made of -/

/-- The call frees a run: data, or the block of an index child. -/
def Event.freesRun : Event → Bool
  | .io (.ballocFreeBlocks _ _) _ => true
  | _ => false

/-- `R` holds across every write and every call that frees no run. -/
class Allows (R : St → St → Prop) : Prop extends StepRel R where
  bytes : ∀ (s : St) (p : Place) (d : Bytes), R s (s.setBytes p d)
  dirty : ∀ s : St, R s { s with dirty := true }
  log : ∀ (s : St) (ev : Event), ev.freesRun = false → R s (s.log ev)

instance : Allows (fun _ _ => True) where
  bytes _ _ _ := trivial
  dirty _ := trivial
  log _ _ _ := trivial

theorem Allows.of_reads {R : St → St → Prop} [Allows R] {s s' : St} (h : Reads s s') :
    R s s' := by
  obtain ⟨bytes, dirty, trace⟩ := s
  obtain ⟨bytes', dirty', trace'⟩ := s'
  obtain ⟨hb, hd, evs, ht, hq⟩ := h
  dsimp only at hb hd ht
  subst hb hd ht
  induction evs with
  | nil => exact StepRel.refl _
  | cons ev evs ih =>
      refine StepRel.trans (ih fun ev' hev' => hq ev' (by simp [hev'])) ?_
      refine Allows.log (R := R) ⟨bytes', dirty', evs ++ trace⟩ ev ?_
      have := hq ev (by simp)
      cases ev with
      | io c r => cases c <;> first | rfl | cases this
      | ballocAllocBlock => rfl
      | checked => rfl

section Parts

variable {inodeRef} {R : St → St → Prop} [Allows R]
variable {s : St} {b pos n : ℕ} {p : Place} {node : ExtentPathNode}

theorem keeps_check (r : Option Errno) : Keeps R (check r) s := by
  cases r
  · exact .pure ()
  · exact .raise _

theorem keeps_callIo (c : IoCall) (hc : (Event.io c none).freesRun = false) :
    Keeps R (callIo inodeRef c) s := by
  have hr := Allows.log (R := R) s (.io c (inodeRef.lwext4.io c s.trace))
    (by cases c <;> first | rfl | cases hc)
  exact wp_callIo.mpr hr

theorem keeps_checked_callIo (c : IoCall) (hc : (Event.io c none).freesRun = false) :
    Keeps R (callIo inodeRef c >>= check) s :=
  .bind (keeps_callIo c hc) fun r _ => keeps_check r

theorem keeps_nodeBlockGet (site : Site) (b : ℕ) : Keeps R (nodeBlockGet inodeRef site b) s :=
  keeps_checked_callIo _ rfl

theorem keeps_transBlockGetNoread (b : ℕ) : Keeps R (transBlockGetNoread inodeRef b) s :=
  keeps_checked_callIo _ rfl

theorem keeps_blockSet (b : ℕ) : Keeps R (blockSet inodeRef b) s := keeps_checked_callIo _ rfl

theorem keeps_ballocFreeBlock (b : ℕ) : Keeps R (ballocFreeBlock inodeRef b) s :=
  keeps_checked_callIo _ rfl

theorem keeps_ballocAllocBlock (goal : ℕ) : Keeps R (ballocAllocBlock inodeRef goal) s :=
  wp_ballocAllocBlock.mpr ⟨fun _ _ => Allows.log _ _ rfl, fun _ _ => Allows.log _ _ rfl⟩

theorem keeps_nodeBlockPut (b : ℕ) : Keeps R (nodeBlockPut inodeRef b) s :=
  .bind (keeps_callIo _ rfl) fun _ _ => .bind (keeps_callIo _ rfl) fun _ _ => keeps_check _

theorem keeps_setInodeDirty : Keeps R setInodeDirty s := wp_setInodeDirty.mpr (Allows.dirty s)

theorem keeps_loadHeader (p : Place) : Keeps R (loadHeader inodeRef p) s :=
  wp_loadHeader.mpr (StepRel.refl s)

theorem keeps_storeHeader (p : Place) (h : Ext4ExtentHeader) :
    Keeps R (storeHeader inodeRef p h) s := wp_storeHeader.mpr (Allows.bytes _ _ _)

theorem keeps_loadExtent (h : inodeRef.Fits p (pos + 1)) : Keeps R (loadExtent inodeRef p pos) s :=
  wp_loadExtent.mpr ⟨h, StepRel.refl s⟩

theorem keeps_storeExtent (h : inodeRef.Fits p (pos + 1)) (e : Ext4Extent) :
    Keeps R (storeExtent inodeRef p pos e) s := wp_storeExtent.mpr ⟨h, Allows.bytes _ _ _⟩

theorem keeps_loadIndex (h : inodeRef.Fits p (pos + 1)) : Keeps R (loadIndex inodeRef p pos) s :=
  wp_loadIndex.mpr ⟨h, StepRel.refl s⟩

theorem keeps_storeIndex (h : inodeRef.Fits p (pos + 1)) (x : Ext4ExtentIndex) :
    Keeps R (storeIndex inodeRef p pos x) s := wp_storeIndex.mpr ⟨h, Allows.bytes _ _ _⟩

theorem keeps_loadKey (h : inodeRef.Fits p (pos + 1)) : Keeps R (loadKey inodeRef p pos) s :=
  (wp_loadKey h).mpr (StepRel.refl s)

theorem keeps_moveEntries {dst src : ℕ} (h : inodeRef.Fits p (dst + n))
    (h' : inodeRef.Fits p (src + n)) : Keeps R (moveEntries inodeRef p dst src n) s :=
  wp_moveEntries.mpr ⟨h, h', Allows.bytes _ _ _⟩

theorem keeps_copyEntries {q : Place} {dst src : ℕ} (h : inodeRef.Fits q (src + n))
    (h' : inodeRef.Fits p (dst + n)) : Keeps R (copyEntries inodeRef p dst q src n) s :=
  wp_copyEntries.mpr ⟨h, h', Allows.bytes _ _ _⟩

theorem keeps_clear {off len : ℕ} (h : off + len ≤ inodeRef.bufSize p) :
    Keeps R (clear inodeRef p off len) s := wp_clear.mpr ⟨h, Allows.bytes _ _ _⟩

theorem keeps_validateHeader (h : Ext4ExtentHeader) :
    wp (validateHeader inodeRef false h) (fun _ s' => R s s' ∧ HeaderOk inodeRef (.block b) h)
      (fun _ s' => R s s') s := by
  rw [show false = (Place.block b).isRoot from rfl, wp_validateHeader]
  exact ⟨fun hh => ⟨StepRel.refl s, hh⟩, fun _ => StepRel.refl s⟩

theorem keeps_validateEntries {h : Ext4ExtentHeader} (hh : HeaderOk inodeRef p h) :
    Keeps R (validateEntries inodeRef p h) s :=
  wp_validateEntries_reads hh.fits (fun _ _ h' => Allows.of_reads h') fun _ => StepRel.refl s

theorem keeps_verifyExtentBlockChecksum (b : ℕ) :
    Keeps R (verifyExtentBlockChecksum inodeRef (.block b)) s :=
  wp_verifyExtentBlockChecksum.mpr ⟨fun _ => StepRel.refl s, fun _ => StepRel.refl s⟩

/-- The checksum goes into the block or not at all. -/
theorem keeps_setExtentBlockChecksum (b : ℕ) (isRoot : Bool) :
    Keeps R (setExtentBlockChecksum inodeRef (.block b) isRoot) s := by
  unfold setExtentBlockChecksum
  refine .ite (fun _ => .pure _) fun _ => .ite (fun _ => .pure _) fun _ =>
    .bind (keeps_loadHeader _) fun header s' => .ite (fun _ => .raise _) fun _ =>
    .ite (fun _ => .raise _) fun ht => ?_
  have hsize : inodeRef.bufSize (.block b) = inodeRef.blockSize := rfl
  exact .bind (wp_peek.mpr ⟨by omega, StepRel.refl s'⟩)
    fun _ s'' => wp_poke.mpr ⟨by omega, Allows.bytes _ _ _⟩

theorem keeps_getForWrite (site : Site) (node : ExtentPathNode) :
    Keeps R (getForWrite inodeRef site node) s :=
  .ite (fun _ => .pure _) fun _ => keeps_nodeBlockGet site _

theorem keeps_releaseNode (node : ExtentPathNode) : Keeps R (releaseNode inodeRef node) s :=
  .ite (fun _ => .pure _) fun _ => keeps_blockSet _

theorem keeps_finishBlock (b : ℕ) : Keeps R (finishBlock inodeRef b) s :=
  .bind (.onError (keeps_setExtentBlockChecksum b false) fun _ => keeps_blockSet b)
    fun _ _ => keeps_nodeBlockPut b

theorem keeps_finishNode (node : ExtentPathNode) : Keeps R (finishNode inodeRef node) s :=
  .ite (fun _ => keeps_setInodeDirty) fun _ => keeps_finishBlock _

theorem PathOk.rootOk {D : Disk} {lblock : ℕ} {path : ExtentSearchPath}
    {ns : List ExtentPathNode} {leaf : ExtentPathNode}
    (h : PathOk inodeRef D lblock path ns leaf) : HeaderOk inodeRef .root (D.header .root) := by
  have hl := h.levels
  cases hns : ns with
  | nil =>
      have h0 := (hns ▸ hl).of_nil.2
      have hleaf := h.leafOk.headerOk
      rwa [← h0] at hleaf
  | cons n ns =>
      obtain ⟨e, -, hl, -⟩ := (hns ▸ hl).of_cons
      exact hl.headerOk

/-- A search fails, or returns a sane path over an acceptable root. -/
theorem keeps_findExtent (lblock : ℕ) (s : St) :
    wp (findExtent inodeRef lblock)
      (fun path s' => R s s' ∧ PathSane inodeRef path ∧
        HeaderOk inodeRef .root (s'.bytes.header .root))
      (fun _ s' => R s s') s := by
  refine wp_mono wp_findExtent ?_ fun _ _ h => Allows.of_reads h.1
  rintro path s' ⟨ns, leaf, h⟩
  exact ⟨Allows.of_reads h.reads, h.pathOk.sane, h.reads.bytes ▸ h.pathOk.rootOk⟩

end Parts

/-! ## Neighbours -/

section Neighbours

variable {inodeRef} {R : St → St → Prop} [Allows R] {s : St} {pos : ℕ} {node : ExtentPathNode}

theorem keeps_nodeGetExtent (h : NodeSane inodeRef node) (hpos : pos < node.header.entriesCount) :
    Keeps R (nodeGetExtent inodeRef node pos) s := by
  have hfit := h.fits (n := pos + 1) (Nat.le_trans hpos h.headerOk.count)
  unfold nodeGetExtent
  refine .ite (fun h0 => ?_) fun h0 => ?_
  · rw [ExtentPathNode.place, h0] at hfit
    exact keeps_loadExtent hfit
  · rw [ExtentPathNode.place, Place.of_ne_zero h0] at hfit
    exact .bind (keeps_nodeBlockGet _ _) fun _ _ => .bind (keeps_loadExtent hfit) fun _ _ =>
      .bind (keeps_blockSet _) fun _ _ => .pure _

theorem keeps_nodeGetIndex (h : NodeSane inodeRef node) (hpos : pos < node.header.entriesCount) :
    Keeps R (nodeGetIndex inodeRef node pos) s := by
  have hfit := h.fits (n := pos + 1) (Nat.le_trans hpos h.headerOk.count)
  unfold nodeGetIndex
  refine .ite (fun h0 => ?_) fun h0 => ?_
  · rw [ExtentPathNode.place, h0] at hfit
    exact keeps_loadIndex hfit
  · rw [ExtentPathNode.place, Place.of_ne_zero h0] at hfit
    exact .bind (keeps_nodeBlockGet _ _) fun _ _ => .bind (keeps_loadIndex hfit) fun _ _ =>
      .bind (keeps_blockSet _) fun _ _ => .pure _

theorem keeps_acceptNode (b d : ℕ) : Keeps R (acceptNode inodeRef b d) s := by
  refine .bind (keeps_verifyExtentBlockChecksum b) fun _ _ => .bind (keeps_loadHeader _)
    fun header _ => .bind_wp (keeps_validateHeader (b := b) header) fun _ _ hh => ?_
  exact .bind (.failIf _ _) fun _ _ => .bind (keeps_validateEntries hh) fun _ _ => .pure _

theorem keeps_leftmostNode (b d : ℕ) : Keeps R (leftmostNode inodeRef b d) s :=
  .bind (keeps_nodeBlockGet _ b) fun _ _ =>
    .bind (.onError (keeps_acceptNode b d) fun _ => keeps_blockSet b) fun _ _ =>
    .ite (fun _ => .bind (keeps_blockSet b) fun _ _ => .raise _) fun _ => .pure _

/-- Every block has room for a first entry. -/
theorem fits_one (b : ℕ) : inodeRef.Fits (.block b) 1 := by
  have := inodeRef.capacity_ge
  exact inodeRef.fits_of_le (show 1 ≤ capacity inodeRef by omega)

theorem keeps_leftmostExtentBelow : ∀ (d : ℕ) (start : Ext4ExtentIndex) (s : St),
    Keeps R (leftmostExtentBelow inodeRef start d) s
  | 0, _, _ => .bind (keeps_leftmostNode _ 0) fun _ _ => .bind (keeps_loadExtent (fits_one _))
      fun _ _ => .bind (keeps_blockSet _) fun _ _ => .pure _
  | d + 1, _, _ => .bind (keeps_leftmostNode _ (d + 1)) fun _ _ => .bind (keeps_loadIndex (fits_one _))
      fun next _ => .bind (keeps_blockSet _) fun _ _ => keeps_leftmostExtentBelow d next _

theorem keeps_findNextExtentLoop {path : ExtentSearchPath} (h : PathSane inodeRef path) :
    ∀ (level : ℕ) (s : St), level ≤ path.depth → Keeps R (findNextExtentLoop inodeRef path level) s
  | 0, _, _ => .raise _
  | level + 1, _, hl => h.bind_node (by omega) fun _ _ hn =>
      .ite (fun hpos => .bind (keeps_nodeGetIndex hn hpos) fun _ _ =>
          .ite (fun _ => .raise _) fun _ => keeps_leftmostExtentBelow _ _ _)
        fun _ => keeps_findNextExtentLoop h level _ (by omega)

theorem keeps_findNextExtent {path : ExtentSearchPath} (h : PathSane inodeRef path) :
    Keeps R (findNextExtent inodeRef path) s :=
  h.bind_node (Nat.le_refl _) fun _ _ hn => .ite (fun hpos => keeps_nodeGetExtent hn hpos)
    fun _ => keeps_findNextExtentLoop h _ _ (Nat.le_refl _)

end Neighbours

/-! ## Splitting and growing -/

section Restructure

variable {inodeRef} {R : St → St → Prop} [Allows R] {s : St} {pos n : ℕ} {node : ExtentPathNode} {path : ExtentSearchPath}

theorem wp_entryInsertPosLoop {p : Place} (key : ℕ) :
    ∀ (n pos : ℕ), inodeRef.Fits p (pos + n) →
      wp (entryInsertPosLoop inodeRef p key n pos) (fun r s' => R s s' ∧ r ≤ pos + n)
        (fun _ s' => R s s') s
  | 0, _, _ => ⟨StepRel.refl s, Nat.le_refl _⟩
  | n + 1, pos, hin => by
      unfold entryInsertPosLoop
      rw [wp_bind, wp_loadKey (hin.mono (by omega)), wp_ite]
      refine ⟨fun _ => ⟨StepRel.refl s, by omega⟩, fun _ => ?_⟩
      exact wp_mono (wp_entryInsertPosLoop key n (pos + 1) (hin.mono (by omega)))
        (fun r _ h => ⟨h.1, by omega⟩) fun _ _ h => h

theorem keeps_recheckNode (node : ExtentPathNode) : Keeps R (recheckNode inodeRef node) s := by
  refine .bind (keeps_loadHeader _) fun header _ =>
    .bind_wp (keeps_validateHeader (b := node.pblockOfNode) header) fun _ _ hh => ?_
  exact .bind (keeps_validateEntries hh) fun _ _ => .failIf _ _

theorem keeps_insertIndexEntry (h : PathSane inodeRef path) {level : ℕ} (hl : level ≤ path.depth)
    (firstBlock pblock : ℕ) : Keeps R (insertIndexEntry inodeRef path level firstBlock pblock) s := by
  refine h.bind_node hl fun node _ hn => .ite (fun _ => .raise _) fun hroom =>
    .bind (keeps_getForWrite _ _) fun _ _ => .bind (.whenever fun _ =>
      .onError (keeps_recheckNode _) fun _ => keeps_releaseNode _) fun _ s' => ?_
  have hlt : node.header.entriesCount < node.header.maxEntriesCount := by omega
  have hfit := hn.fits (n := node.header.entriesCount + 1) hlt
  refine .bind_wp (wp_entryInsertPosLoop firstBlock
    node.header.entriesCount 0 (hfit.mono (by omega))) fun pos _ hpos => ?_
  refine .bind (.ite (fun _ => .bind (keeps_loadKey (hfit.mono (by omega))) fun _ _ => .pure _)
    fun _ => .pure _) fun _ _ => .ite (fun _ => ?_) fun _ => ?_
  · exact .bind (.attempt (keeps_releaseNode _)) fun _ _ => .raise _
  · exact .bind (.whenever fun _ => keeps_moveEntries (hfit.mono (by omega)) (hfit.mono (by omega)))
      fun _ _ => .bind (keeps_storeIndex (hfit.mono (by omega)) _) fun _ _ =>
      .bind (keeps_storeHeader _ _) fun _ _ => keeps_finishNode _

theorem keeps_freeNewMetadataBlock {α : Type} (b : ℕ) (e : Errno) :
    Keeps R (freeNewMetadataBlock inodeRef b e : M α) s :=
  .bind (.attempt (keeps_ballocFreeBlock b)) fun _ _ => .raise _

theorem keeps_abandonNewBlock {α : Type} {cleanup : M Unit} (hc : Keeps R cleanup s) (b : ℕ)
    (e : Errno) : Keeps R (abandonNewBlock inodeRef cleanup b e : M α) s :=
  .bind (.attempt hc) fun _ _ => keeps_freeNewMetadataBlock b e

theorem keeps_fillNewNode {p : Place} {src : ℕ} (b : ℕ) (header : Ext4ExtentHeader)
    (h : inodeRef.Fits p (src + n)) (h' : inodeRef.Fits (.block b) n) :
    Keeps R (fillNewNode inodeRef b header p src n) s :=
  .bind (keeps_storeHeader _ _) fun _ _ => keeps_copyEntries h (by rwa [Nat.zero_add])

theorem keeps_shortenNode (hn : NodeSane inodeRef node) {mid : ℕ}
    (hmid : mid ≤ node.header.entriesCount) : Keeps R (shortenNode inodeRef node mid) s := by
  have hfit := hn.fits_block node.pblockOfNode (n := node.header.entriesCount)
    hn.headerOk.count
  have hclear : entryOff mid + (node.header.entriesCount - mid) * ext4ExtentSize ≤
      inodeRef.bufSize (.block node.pblockOfNode) :=
    entryOff_add_mul_le_iff.mpr (hfit.mono (by omega))
  exact .bind (keeps_nodeBlockGet _ _) fun _ _ => .bind (keeps_storeHeader _ _) fun _ _ =>
    .bind (keeps_clear hclear) fun _ _ => keeps_finishBlock _

theorem keeps_splitFullNode (h : PathSane inodeRef path) {level : ℕ} (hl : level ≤ path.depth) :
    Keeps R (splitFullNode inodeRef path level) s := by
  refine h.bind_node hl fun node hget hn => .ite (fun _ => .raise _) fun hc =>
    h.bind_node (by omega) fun parent _ hp => .ite (fun _ => .raise _) fun _ => ?_
  have hfit (b : ℕ) := hn.fits_block b (n := node.header.entriesCount) hn.headerOk.count
  refine .bind (keeps_nodeBlockGet _ _) fun _ _ =>
    .bind (.onError (keeps_recheckNode node) fun _ => keeps_blockSet _) fun _ _ =>
    .bind (.onError (keeps_ballocAllocBlock _) fun _ => keeps_blockSet _) fun new _ =>
    .bind (.orElse (keeps_transBlockGetNoread _) fun _ _ => keeps_abandonNewBlock (keeps_blockSet _) _ _)
      fun _ _ => .bind (keeps_clear (by rw [Nat.zero_add]; exact Nat.le_refl _)) fun _ _ =>
    .bind (keeps_fillNewNode _ _ ((hfit _).mono (by omega)) ((hfit _).mono (by omega)))
      fun _ _ => .bind (keeps_loadKey (fits_one _)) fun _ _ =>
    .bind (.orElse (keeps_blockSet _) fun _ _ => keeps_abandonNewBlock (keeps_blockSet _) _ _)
      fun _ _ => .bind (.orElse (keeps_setExtentBlockChecksum _ _) fun _ _ =>
        keeps_abandonNewBlock (keeps_blockSet _) _ _) fun _ _ =>
    .bind (.orElse (keeps_nodeBlockPut _) fun _ _ => keeps_freeNewMetadataBlock _ _) fun _ _ =>
    .bind (.orElse (keeps_insertIndexEntry h (by omega) _ _) fun _ _ =>
        keeps_freeNewMetadataBlock _ _) fun _ _ => keeps_shortenNode hn (Nat.div_le_self _ _)

/-- Growing rewrites the root, whose header has to be acceptable at that moment. -/
theorem keeps_growIndepth (h : HeaderOk inodeRef .root (s.bytes.header .root)) :
    Keeps R (growIndepth inodeRef) s := by
  have hfit := h.fits
  have hcount : (s.bytes.header .root).entriesCount ≤ 4 := Nat.le_trans h.count h.max
  have hcap := inodeRef.capacity_ge
  have hblock (b n : ℕ) (hn : n ≤ 4) : inodeRef.Fits (.block b) n :=
    inodeRef.fits_of_le (show n ≤ capacity inodeRef by omega)
  have hroot : inodeRef.Fits .root 1 := inodeRef.fits_of_le (show 1 ≤ 4 by decide)
  unfold growIndepth Keeps
  rw [wp_bind, wp_loadHeader]
  refine Keeps.ite (R := R) (fun _ => .raise _) fun _ => .bind (keeps_ballocAllocBlock _) fun new _ =>
    .bind (.onError (keeps_transBlockGetNoread _) fun _ => keeps_ballocFreeBlock _) fun _ _ =>
    .bind (keeps_clear (by rw [Nat.zero_add]; exact Nat.le_refl _)) fun _ _ =>
    .bind (.ite (fun h0 => .bind (keeps_loadExtent (hfit.mono h0)) fun _ _ => .pure _)
      fun _ => .pure _) fun _ _ =>
    .bind (keeps_fillNewNode _ _ (by rwa [Nat.zero_add]) (hblock _ _ hcount)) fun _ _ =>
    .bind (.orElse (keeps_setExtentBlockChecksum _ _) fun _ _ =>
        keeps_abandonNewBlock (keeps_blockSet _) _ _) fun _ _ =>
    .bind (.onError (keeps_nodeBlockPut _) fun _ => keeps_ballocFreeBlock _) fun _ _ =>
    .bind (keeps_loadHeader _) fun _ _ => .bind (keeps_storeHeader _ _) fun _ _ =>
    .bind (keeps_clear (Nat.le_refl 60)) fun _ _ => .bind (keeps_storeIndex hroot _) fun _ _ =>
    keeps_setInodeDirty

/-- What the scan for a full node reports. -/
structure FullLevel (path : ExtentSearchPath) (level : ℕ) (r : Option ℕ) : Prop where
  some : ∀ l, r = some l → level ≤ l ∧ l ≤ path.depth ∧ ∃ node, path.path[l]? = some node ∧
    node.header.maxEntriesCount ≤ node.header.entriesCount
  none : r = none → ∀ l, level ≤ l → l ≤ path.depth → ∀ node, path.path[l]? = Option.some node →
    node.header.entriesCount < node.header.maxEntriesCount
  before : ∀ l, r = Option.some l → ∀ j, level ≤ j → j < l → ∀ node,
    path.path[j]? = Option.some node → node.header.entriesCount < node.header.maxEntriesCount

theorem wp_firstFullLevel {E : Errno → St → Prop} (h : PathSane inodeRef path) :
    ∀ (n level : ℕ), level + n = path.depth + 1 →
      wp (firstFullLevel path n level) (fun r s' => s' = s ∧ FullLevel path level r) E s
  | 0, level, hl => ⟨rfl, by simp, fun _ l h₁ h₂ => by omega, by simp⟩
  | n + 1, level, hl => by
      have hlt : level < path.path.length := by rw [h.length]; omega
      have hget := List.getElem?_eq_getElem hlt
      unfold firstFullLevel
      rw [wp_bind, wp_node]
      refine ⟨_, hget, (wp_ite _ _ _).mpr ⟨fun hfull => ?_, fun hroom => ?_⟩⟩
      · refine ⟨rfl, ?_, by simp, ?_⟩
        · rintro l ⟨⟩
          exact ⟨Nat.le_refl _, by omega, _, hget, hfull⟩
        · rintro l ⟨⟩ j h₁ h₂
          exact absurd h₂ (Nat.not_lt.mpr h₁)
      · refine wp_mono (wp_firstFullLevel h n (level + 1) (by omega)) ?_ fun _ _ h => h
        rintro r _ ⟨rfl, hr⟩
        have hhere {j : ℕ} (h₁ : level ≤ j)
            (h₂ : level + 1 ≤ j → ∀ node, path.path[j]? = some node →
              node.header.entriesCount < node.header.maxEntriesCount) (node : ExtentPathNode)
            (hnode : path.path[j]? = some node) :
            node.header.entriesCount < node.header.maxEntriesCount := by
          rcases Nat.eq_or_lt_of_le h₁ with rfl | h₁
          · rw [hget] at hnode
            obtain rfl := Option.some.inj hnode
            exact Nat.lt_of_not_le hroom
          · exact h₂ h₁ node hnode
        refine ⟨rfl, fun l hl' => ?_, fun hnone l h₁ h₂ => ?_, fun l hl' j h₁ h₂ => ?_⟩
        · obtain ⟨h₁, h₂⟩ := hr.some l hl'
          exact ⟨by omega, h₂⟩
        · exact hhere h₁ fun h₁ => hr.none hnone l h₁ h₂
        · exact hhere h₁ fun h₁ => hr.before l hl' j h₁ h₂

variable (inodeRef) in
/-- What `ensure_insert_room` returns, on any disk: the path of a last search, which
met only nodes with room. -/
structure Roomy (R : St → St → Prop) (s : St) (lblock : ℕ) (path : ExtentSearchPath) (s' : St) :
    Prop where
  found : ∃ s₁ ns leaf, R s s₁ ∧ Found inodeRef s₁ lblock path s' ns leaf
  room : ∀ node ∈ path.path, node.header.entriesCount < node.header.maxEntriesCount

omit [Allows R] in
theorem Roomy.sane {lblock : ℕ} {s' : St} (h : Roomy inodeRef R s lblock path s') :
    PathSane inodeRef path :=
  let ⟨_, _, _, _, hf⟩ := h.found
  hf.pathOk.sane

theorem Roomy.keeps {lblock : ℕ} {s' : St} (h : Roomy inodeRef R s lblock path s') : R s s' :=
  let ⟨_, _, _, hr, hf⟩ := h.found
  StepRel.trans hr (Allows.of_reads hf.reads)

theorem keeps_ensureInsertRoomLoop (firstBlock : ℕ) : ∀ (attempts : ℕ) (s : St),
    wp (ensureInsertRoomLoop inodeRef firstBlock attempts)
      (fun path s' => Roomy inodeRef R s firstBlock path s') (fun _ s' => R s s') s
  | 0, s => StepRel.refl s
  | attempts + 1, s => by
      have again (s₁ : St) (hr : R s s₁) :
          wp (ensureInsertRoomLoop inodeRef firstBlock attempts)
            (fun path s' => Roomy inodeRef R s firstBlock path s') (fun _ s' => R s s') s₁ := by
        refine wp_mono (keeps_ensureInsertRoomLoop firstBlock attempts s₁) ?_
          fun _ _ h => StepRel.trans hr h
        rintro path s' ⟨⟨s₂, ns, leaf, hr₂, hf⟩, hroom⟩
        exact ⟨⟨s₂, ns, leaf, StepRel.trans hr hr₂, hf⟩, hroom⟩
      unfold ensureInsertRoomLoop
      rw [wp_bind]
      refine wp_mono wp_findExtent ?_ fun _ _ h => Allows.of_reads h.1
      rintro path s₁ ⟨ns, leaf, hf⟩
      have hr : R s s₁ := Allows.of_reads hf.reads
      have hpath := hf.pathOk.sane
      have hlt : 0 < path.path.length := by rw [hpath.length]; omega
      have hget := List.getElem?_eq_getElem hlt
      rw [wp_bind, wp_node]
      refine ⟨_, hget, (wp_ite _ _ _).mpr ⟨fun _ => ?_, fun hroot => ?_⟩⟩
      · rw [wp_bind]
        have hrootOk : HeaderOk inodeRef .root (s₁.bytes.header .root) :=
          hf.reads.bytes ▸ hf.pathOk.rootOk
        exact wp_mono ((keeps_growIndepth hrootOk).from_earlier hr) (fun _ s₂ h => again s₂ h)
          fun _ _ h => h
      · rw [wp_bind]
        refine wp_mono (wp_firstFullLevel (E := fun _ s' => R s s') hpath path.depth 1 (by omega))
          ?_ fun _ _ h => h
        rintro (_ | level) s₂ ⟨rfl, hlevel⟩
        · refine ⟨⟨s, ns, leaf, StepRel.refl s, hf⟩, fun node hnode => ?_⟩
          obtain ⟨l, hl, rfl⟩ := List.mem_iff_getElem.mp hnode
          rw [hpath.length] at hl
          rcases Nat.eq_zero_or_pos l with rfl | h0
          · omega
          · exact hlevel.none rfl l h0 (by omega) _ (List.getElem?_eq_getElem _)
        · rw [wp_bind]
          exact wp_mono ((keeps_splitFullNode hpath (hlevel.some level rfl).2.1).from_earlier hr)
            (fun _ s₃ h => again s₃ h) fun _ _ h => h

theorem keeps_ensureInsertRoom (firstBlock : ℕ) (s : St) :
    wp (ensureInsertRoom inodeRef firstBlock)
      (fun path s' => R s s' ∧ Roomy inodeRef R s firstBlock path s') (fun _ s' => R s s') s :=
  wp_mono (keeps_ensureInsertRoomLoop firstBlock _ s) (fun _ _ h => ⟨h.keeps, h⟩) fun _ _ h => h

theorem keeps_writeIndexAt (hn : NodeSane inodeRef node) (hpos : pos < node.header.maxEntriesCount)
    (x : Ext4ExtentIndex) : Keeps R (writeIndexAt inodeRef node pos x) s :=
  .bind (keeps_getForWrite _ _) fun _ _ => .bind (keeps_storeIndex (hn.fits hpos) x) fun _ _ =>
    keeps_finishNode _

theorem keeps_correctIndexes (h : PathSane inodeRef path) (key : ℕ) :
    ∀ (childLevel : ℕ) (s : St), childLevel ≤ path.depth →
      Keeps R (correctIndexes inodeRef path key childLevel) s
  | 0, _, _ => .pure _
  | parent + 1, _, hl => h.bind_node (by omega) fun node hget hn =>
      .bind (keeps_writeIndexAt hn
          (Nat.lt_of_lt_of_le (h.index parent (by omega) node hget) hn.headerOk.count) _)
        fun _ _ => .ite (fun _ => .pure _) fun _ => keeps_correctIndexes h key parent _ (by omega)

theorem keeps_dropIndex (hn : NodeSane inodeRef node)
    (hpos : node.position < node.header.entriesCount) : Keeps R (dropIndex inodeRef node) s := by
  have hlt := hn.count_lt
  have hcount := hn.headerOk.count
  have hfit := hn.fits hcount
  have h₁ : sub32 node.header.entriesCount 1 = node.header.entriesCount - 1 :=
    sub32_of_le (by omega) (by omega)
  have h₂ : sub32 node.header.entriesCount node.position =
      node.header.entriesCount - node.position := sub32_of_le (by omega) (by omega)
  have h₃ : sub32 (node.header.entriesCount - node.position) 1 =
      node.header.entriesCount - node.position - 1 := sub32_of_le (by omega) (by omega)
  unfold dropIndex
  simp only [h₁, h₂, h₃]
  refine .bind (.whenever fun hne => .bind (keeps_moveEntries (hfit.mono (by omega))
    (hfit.mono (by omega))) fun _ _ => keeps_clear ?_) fun _ _ => .bind (keeps_storeHeader _ _)
    fun _ _ => .ite (fun _ => keeps_loadKey (hfit.mono (by omega))) fun _ => .pure _
  exact entryOff_add_le_iff.mpr (hfit.mono (by omega))

theorem keeps_replaceByTwo (hn : NodeSane inodeRef node)
    (hroom : node.header.entriesCount < node.header.maxEntriesCount) (pre suffix : Ext4Extent) :
    Keeps R (replaceByTwo inodeRef node pre suffix) s := by
  have hfit := hn.fits (n := node.header.entriesCount + 1) hroom
  have hslots : inodeRef.Fits node.place (node.position + 2) := by
    rcases hn.position with hpos | ⟨hpos, -⟩
    · exact hfit.mono (by omega)
    · exact NodeSane.fits_small (by omega)
  exact .bind (.whenever fun _ => keeps_moveEntries (hfit.mono (by omega)) (hfit.mono (by omega)))
    fun _ _ => .bind (keeps_storeExtent (hslots.mono (by omega)) _) fun _ _ =>
    .bind (keeps_storeExtent hslots _) fun _ _ => keeps_storeHeader _ _

theorem keeps_collapseRoot : Keeps R (collapseRoot inodeRef) s :=
  .bind (keeps_loadHeader _) fun _ _ => .bind (keeps_storeHeader _ _) fun _ _ => keeps_setInodeDirty

end Restructure

/-! ## Inserting -/

section Insert

variable {inodeRef} {R : St → St → Prop} [Allows R] {s : St} {pos : ℕ} {node leaf : ExtentPathNode} {path : ExtentSearchPath}

theorem NodeSane.newExtentPos_le (h : NodeSane inodeRef node) (e : Ext4Extent) :
    newExtentPos node e ≤ node.header.entriesCount ∨
      newExtentPos node e = 1 ∧ node.header.entriesCount = 0 := by
  unfold newExtentPos
  have := h.position
  split <;> omega

theorem keeps_placeExtent (hn : NodeSane inodeRef node)
    (hroom : node.header.entriesCount < node.header.maxEntriesCount)
    (hpos : pos ≤ node.header.entriesCount ∨ pos = 1) (e : Ext4Extent) :
    Keeps R (placeExtent inodeRef node pos e) s := by
  have hfit := hn.fits (n := node.header.entriesCount + 1) hroom
  have hslot : inodeRef.Fits node.place (pos + 1) := by
    rcases hpos with hpos | rfl
    · exact hfit.mono (by omega)
    · exact NodeSane.fits_small (by decide)
  exact .bind (.whenever fun _ => keeps_moveEntries (hfit.mono (by omega)) (hfit.mono (by omega)))
    fun _ _ => .bind (keeps_storeExtent hslot e) fun _ _ => keeps_storeHeader _ _

/-- The recursion of `insert_extent` through `insert_new_extent` is never taken:
its caller has made room. -/
theorem keeps_insertNewExtent {reinsert : ℕ → Ext4Extent → M Unit} (h : PathSane inodeRef path)
    (hroom : ∀ leaf, path.path[path.depth]? = some leaf →
      leaf.header.entriesCount < leaf.header.maxEntriesCount) (e : Ext4Extent) :
    Keeps R (insertNewExtent inodeRef reinsert path e) s := by
  refine h.bind_node (Nat.le_refl _) fun node hget hn => .ite (fun hd => ?_) fun hd => ?_
  · have hplace : ({ node with pblockOfNode := 0 } : ExtentPathNode) = node := by
      have h0 := h.root node (by rwa [hd] at hget)
      cases node
      simp only at h0
      rw [h0]
    have hroot : inodeRef.Fits .root 1 := inodeRef.fits_of_le (show 1 ≤ 4 by decide)
    refine .ite (fun _ => ?_) fun h0 => .ite (fun hfull => ?_) fun _ => ?_
    · exact .bind (keeps_storeExtent hroot e) fun _ _ => .bind (keeps_storeHeader _ _)
        fun _ _ => keeps_setInodeDirty
    · have := hroom node hget; omega
    · rw [hplace]
      exact .bind (keeps_placeExtent hn (hroom node hget)
        (by have := hn.newExtentPos_le e; omega) e) fun _ _ => keeps_setInodeDirty
  · exact .bind (keeps_nodeBlockGet _ _) fun _ _ =>
      .bind (keeps_placeExtent hn (hroom node hget) (by have := hn.newExtentPos_le e; omega) e)
        fun _ _ => .bind (keeps_finishBlock _) fun _ _ =>
      .ite (fun _ => keeps_correctIndexes h _ _ _ (Nat.le_refl _)) fun _ => .pure _

theorem keeps_mergeExtent (h : PathSane inodeRef path)
    (hget : path.path[path.depth]? = some leaf) (hpos : pos < leaf.header.entriesCount)
    (l r : Ext4Extent) : Keeps R (mergeExtent inodeRef path l r pos) s := by
  refine h.bind_node (Nat.le_refl _) fun node hget' hn => ?_
  obtain rfl : node = leaf := by rw [hget] at hget'; exact (Option.some.inj hget').symm
  have hfit := hn.fits_block node.pblockOfNode (n := pos + 1)
    (Nat.le_trans hpos hn.headerOk.count)
  exact .ite (fun _ => .bind (keeps_nodeBlockGet _ _) fun _ _ => .bind (keeps_storeExtent hfit _)
    fun _ _ => .bind (keeps_finishBlock _) fun _ _ => .pure _) fun _ => .pure _

theorem keeps_storeMergedInRoot (hn : NodeSane inodeRef leaf) (hpos : pos < leaf.header.entriesCount)
    (e : Ext4Extent) : Keeps R (storeMergedInRoot inodeRef leaf pos e) s := by
  refine .whenever fun h0 => .bind (keeps_storeExtent ?_ e) fun _ _ => keeps_setInodeDirty
  have hfit := hn.fits (n := pos + 1) (Nat.le_trans hpos hn.headerOk.count)
  rwa [ExtentPathNode.place, h0] at hfit

theorem keeps_mergeIf (h : PathSane inodeRef path) (hget : path.path[path.depth]? = some leaf)
    (c : Prop) [Decidable c] (hpos : c → pos < leaf.header.entriesCount)
    (pair : Ext4Extent → Ext4Extent × Ext4Extent) :
    Keeps R (mergeIf inodeRef path leaf c pos pair) s := by
  have hn := h.sane leaf (List.mem_of_getElem? hget)
  exact .ite (fun hc => .bind (keeps_nodeGetExtent hn (hpos hc)) fun _ _ =>
    .ite (fun _ => .bind (keeps_mergeExtent h hget (hpos hc) _ _) fun _ _ =>
      .bind (keeps_storeMergedInRoot hn (hpos hc) _) fun _ _ => .pure _) fun _ => .pure _)
    fun _ => .pure _

theorem keeps_insertWithRoom {reinsert : ℕ → Ext4Extent → M Unit} (h : PathSane inodeRef path)
    (hget : path.path[path.depth]? = some leaf) (firstBlock : ℕ) (e : Ext4Extent) :
    Keeps R (insertWithRoom inodeRef reinsert path leaf firstBlock e) s := by
  refine .ite (fun hroom => keeps_insertNewExtent h (fun leaf' hget' => ?_) e) fun _ =>
    .bind_wp (keeps_ensureInsertRoom firstBlock _) fun path' _ h' =>
    h'.sane.bind_node (Nat.le_refl _) fun node hnode _ => .ite (fun _ => .raise _) fun hroom =>
    keeps_insertNewExtent h'.sane (fun leaf' hget' => ?_) e
  · obtain rfl : leaf = leaf' := by rw [hget] at hget'; exact Option.some.inj hget'
    exact hroom
  · obtain rfl : node = leaf' := by rw [hnode] at hget'; exact Option.some.inj hget'
    omega

theorem keeps_insertExtentBody {reinsert : ℕ → Ext4Extent → M Unit} (firstBlock : ℕ)
    (e : Ext4Extent) : Keeps R (insertExtentBody inodeRef reinsert firstBlock e) s := by
  refine .bind_wp (keeps_findExtent firstBlock s) fun path _ ⟨h, _⟩ =>
    h.bind_node (Nat.le_refl _) fun leaf hget hn => .ite (fun h0 => ?_) fun h0 => ?_
  · refine keeps_insertNewExtent h (fun leaf' hget' => ?_) e
    obtain rfl : leaf = leaf' := by rw [hget] at hget'; exact Option.some.inj hget'
    have := hn.headerOk.pos
    omega
  · have hpos : leaf.position < leaf.header.entriesCount := by have := hn.position; omega
    refine .ite (fun _ => .ite (fun _ => .raise _) fun _ => .ite (fun _ => ?_) fun _ => ?_)
      fun _ => keeps_insertWithRoom h hget firstBlock e
    · exact .bind (keeps_mergeExtent h hget hpos _ _) fun _ _ => keeps_storeMergedInRoot hn hpos _
    · refine .bind ?_ fun _ _ => .ite (fun _ => .pure _) fun _ =>
        keeps_insertWithRoom h hget firstBlock e
      refine .bind (keeps_mergeIf h hget _ (fun hc => ?_) _) fun _ _ => .ite (fun _ => .pure _)
        fun _ => keeps_mergeIf h hget _ (fun hc => ?_) _
      · have := hc.1; omega
      · have := hc.1; omega

theorem keeps_insertExtent (calls : ℕ) (firstBlock : ℕ) (e : Ext4Extent) :
    Keeps R (insertExtent inodeRef (calls + 1) firstBlock e) s := keeps_insertExtentBody firstBlock e

end Insert

/-! ## Removing -/

section Remove

variable {inodeRef} {s : St} {node leaf : ExtentPathNode} {path : ExtentSearchPath}

theorem safe_ballocFreeBlocks (first count : ℕ) : Safe (ballocFreeBlocks inodeRef first count) s :=
  wp_ballocFreeBlocks.mpr ⟨fun _ => trivial, fun _ _ => trivial⟩

theorem safe_removeBlocks (e : Ext4Extent) (first last : ℕ) :
    Safe (removeBlocks inodeRef e first last) s := safe_ballocFreeBlocks _ _

theorem safe_removeIndexStep (h : PathSane inodeRef path) {depth : ℕ} (hd : depth < path.depth)
    {removeParent : M Unit} (hp : depth ≠ 0 → ∀ s, Safe removeParent s) :
    Safe (removeIndexStep inodeRef path depth removeParent) s := by
  refine h.bind_node (by omega) fun node hget hn => .bind (keeps_getForWrite _ _) fun _ _ =>
    .bind (keeps_dropIndex hn (h.index depth hd node hget)) fun firstAfter _ =>
    .bind (keeps_finishNode _) fun _ _ => .bind (safe_ballocFreeBlocks _ _) fun _ s' => ?_
  dsimp only
  generalize u16 (sub32 node.header.entriesCount 1) = left
  refine .bind (.whenever fun _ => keeps_correctIndexes h _ _ s' (Nat.le_of_lt hd)) fun _ _ =>
    .ite (fun _ => .ite (fun _ => keeps_collapseRoot) fun h0 => hp ?_ _) fun _ => .pure _
  rintro rfl
  exact h0 (h.root node hget)

theorem safe_removeIndex (h : PathSane inodeRef path) : ∀ (depth : ℕ) (s : St),
    depth < path.depth → Safe (removeIndex inodeRef path depth) s
  | 0, _, hd => safe_removeIndexStep h hd fun h0 => absurd rfl h0
  | depth + 1, _, hd =>
      safe_removeIndexStep h hd fun _ s => safe_removeIndex h depth s (by omega)

theorem wp_removeLeafLoop_le (hn : NodeSane inodeRef leaf) (first last : ℕ) :
    ∀ (n i write count : ℕ) (s : St), i + n ≤ leaf.header.entriesCount → write ≤ i →
      wp (removeLeafLoop inodeRef leaf.place leaf first last n i write count)
        (fun r _ => True ∧ r.1 ≤ r.2.1 ∧ r.2.1 ≤ i + n) (fun _ _ => True) s
  | 0, i, write, _, _, _, hw => ⟨trivial, hw, Nat.le_refl _⟩
  | n + 1, i, write, count, s, hi, hw => by
      have hfit := hn.fits hn.headerOk.count
      have next (write' count' : ℕ) (s' : St) (hw' : write' ≤ i + 1) :=
        wp_mono (wp_removeLeafLoop_le hn first last n (i + 1) write' count' s' (by omega) hw')
          (fun r _ (h : True ∧ r.1 ≤ r.2.1 ∧ r.2.1 ≤ i + 1 + n) =>
            (⟨trivial, h.2.1, by omega⟩ : True ∧ r.1 ≤ r.2.1 ∧ r.2.1 ≤ i + (n + 1)))
          fun _ _ h => h
      unfold removeLeafLoop
      rw [wp_bind, wp_loadExtent]
      refine ⟨hfit.mono (by omega), (wp_ite _ _ _).mpr ⟨fun _ => ⟨trivial, hw, Nat.le_add_right i _⟩,
        fun _ => ?_⟩⟩
      refine (wp_ite _ _ _).mpr ⟨fun _ => ?_, fun _ => ?_⟩
      · rw [wp_bind, wp_storeExtent]
        exact ⟨hfit.mono (by omega), next _ _ _ (by omega)⟩
      · rw [wp_bind]
        refine wp_mono (Keeps.onError (safe_removeBlocks _ _ _) fun _ => keeps_releaseNode leaf) ?_
          fun _ _ _ => trivial
        intro _ s' _
        split
        · exact next _ _ _ (by omega)
        · rw [wp_bind, wp_storeExtent]
          exact ⟨hfit.mono (by omega), next _ _ _ (by omega)⟩

theorem safe_rewriteLeaf (hn : NodeSane inodeRef leaf)
    (hpos : leaf.position < leaf.header.entriesCount) (first last : ℕ) :
    Safe (rewriteLeaf inodeRef leaf first last) s := by
  have hfit := hn.fits hn.headerOk.count
  refine .bind_wp (wp_removeLeafLoop_le hn first last _ leaf.position leaf.position _ s (by omega)
    (Nat.le_refl _)) ?_
  rintro ⟨write, i, count⟩ s' ⟨hw, hi⟩
  dsimp only at hw hi
  exact .bind (.whenever fun hc => keeps_moveEntries (hfit.mono (by omega)) (hfit.mono (by omega)))
    fun _ _ => .bind (keeps_storeHeader _ _) fun _ _ => .ite
      (fun _ => .bind (keeps_loadKey (hfit.mono (by omega))) fun _ _ => .pure _) fun _ => .pure _

theorem safe_removeLeaf (h : PathSane inodeRef path)
    (hpos : ∀ leaf, path.path[path.depth]? = some leaf →
      leaf.position < leaf.header.entriesCount) (first last : ℕ) :
    Safe (removeLeaf inodeRef path first last) s := by
  refine h.bind_node (Nat.le_refl _) fun leaf hget hn => .bind (keeps_getForWrite _ _) fun _ _ =>
    .bind (safe_rewriteLeaf hn (hpos leaf hget) first last) fun r _ =>
    .bind (keeps_finishNode _) fun _ _ =>
    .bind (.whenever fun _ => keeps_correctIndexes h _ _ _ (Nat.le_refl _)) fun _ _ =>
    .ite (fun _ => .ite (fun _ => trivial) fun h0 => safe_removeIndex h _ _ ?_) fun _ => .pure _
  -- a leaf outside the inode has a parent
  rcases Nat.eq_zero_or_pos path.depth with hd | hd
  · exact absurd (h.root leaf (by rwa [hd] at hget)) h0
  · omega

theorem safe_removeMiddleOfExtent (first last : ℕ) :
    Safe (removeMiddleOfExtent inodeRef first last) s :=
  .bind_wp (keeps_ensureInsertRoom (R := fun _ _ => True) first s) fun path _ h =>
    h.sane.bind_node (Nat.le_refl _) fun leaf _ hn => .ite (fun _ => trivial) fun hc =>
    .bind (keeps_getForWrite _ _) fun _ _ => .bind (keeps_replaceByTwo hn (by omega) _ _)
    fun _ _ => .bind (keeps_finishNode _) fun _ _ => safe_removeBlocks _ _ _

end Remove

/-! ## The hooks -/

section Hooks

variable {inodeRef} {s : St} {leaf : ExtentPathNode} {path : ExtentSearchPath}

theorem safe_requireJournaledMutation : Safe (requireJournaledMutation inodeRef) s :=
  .ite (fun _ => .pure _) fun _ => trivial

theorem safe_freeRun {α : Type} (first count : ℕ) (e : Errno) :
    Safe (freeRun inodeRef first count e : M α) s :=
  .bind (safe_ballocFreeBlocks _ _) fun _ _ => trivial

theorem safe_gapToNext (h : PathSane inodeRef path) (hn : NodeSane inodeRef leaf) (iblock : ℕ) :
    Safe (gapToNext inodeRef path leaf iblock) s := by
  refine .ite (fun _ => .ite (fun _ => .pure _) fun _ => .ite (fun hpos =>
    .bind (keeps_nodeGetExtent hn hpos) fun _ _ => .pure _) fun _ =>
    .bind (.attempt (keeps_findNextExtent h)) fun r _ => ?_) fun _ => .pure _
  split
  · exact .ite (fun _ => trivial) fun _ => trivial
  · trivial
  · trivial

theorem safe_allocateRun : ∀ (n goal first count : ℕ) (s : St),
    Safe (allocateRun inodeRef n goal first count) s
  | 0, _, _, _, _ => trivial
  | n + 1, _, _, _, _ => .bind (.attempt (keeps_ballocAllocBlock _)) fun r _ => by
      split
      · exact .ite (fun _ => trivial) fun _ => .ite (fun _ => safe_freeRun _ _ _) fun _ => trivial
      · exact .ite (fun _ => safe_allocateRun n _ _ _ _) fun _ =>
          .ite (fun _ => safe_allocateRun n _ _ _ _) fun _ =>
          .bind (.orElse (keeps_ballocFreeBlock _) fun _ _ => safe_freeRun _ _ _) fun _ _ => trivial

theorem safe_createBlocks (h : PathSane inodeRef path) (hn : NodeSane inodeRef leaf)
    (iblock maxBlocks : ℕ) : Safe (createBlocks inodeRef path leaf iblock maxBlocks) s :=
  .bind safe_requireJournaledMutation fun _ _ => .bind (safe_gapToNext h hn iblock) fun _ _ =>
    .bind (.failIf _ _) fun _ _ => .bind (safe_allocateRun _ _ _ _ _) fun _ _ =>
    .bind (.failIf _ _) fun _ _ => .bind (.orElse (keeps_insertExtent 7 _ _) fun _ _ =>
      safe_freeRun _ _ _) fun _ _ => .pure _

/-- Whatever the inode root and the blocks hold, a lookup or a create stays in
its buffers and in the six levels of the search path. -/
theorem safe_ext4ExtentGetBlocks (iblock maxBlocks : UInt32) (create : Bool) (s : St) :
    Safe (ext4ExtentGetBlocks inodeRef iblock maxBlocks create) s :=
  .bind_wp (keeps_findExtent (R := fun _ _ => True) _ s) fun _ _ ⟨h, _⟩ => h.bind_node (Nat.le_refl _)
    fun _ _ hn => .ite (fun _ => .ite (fun _ => .ite (fun _ => trivial) fun _ => trivial)
      fun _ => trivial) fun _ => .ite (fun _ => trivial) fun _ => safe_createBlocks h hn _ _

/-- The same of one round of `ext4_extent_remove_space`. -/
theorem safe_removeSpaceStep (first last : ℕ) (s : St) :
    Safe (removeSpaceStep inodeRef first last) s := by
  refine .bind_wp (keeps_findExtent (R := fun _ _ => True) _ s) fun path _ ⟨h, _⟩ => h.bind_node (Nat.le_refl _)
    fun leaf hget hn => .ite (fun _ => trivial) fun hc => .ite (fun _ =>
      .bind (safe_removeMiddleOfExtent _ _) fun _ _ => .pure _) fun _ => .ite (fun _ =>
      .bind (.attempt (keeps_findNextExtent h)) fun r _ => ?_) fun _ =>
      .bind (safe_removeLeaf h (fun leaf' hget' => ?_) _ _) fun _ _ =>
        .ite (fun _ => trivial) fun _ => trivial
  · split <;> trivial
  · obtain rfl : leaf = leaf' := by rw [hget] at hget'; exact Option.some.inj hget'
    have := hn.position
    omega

/-- Every access of a lookup, of a create and of a round of a removal lies in its
buffer. -/
theorem accesses_in_bounds (inodeRef : InodeRef) (s : St) :
    (∀ (iblock maxBlocks : UInt32) (create : Bool),
      ext4ExtentGetBlocks inodeRef iblock maxBlocks create s ≠ .fault .outOfBounds) ∧
    ∀ first last : UInt32,
      removeSpaceStep inodeRef first.toNat last.toNat s ≠ .fault .outOfBounds :=
  ⟨fun iblock maxBlocks create => (safe_ext4ExtentGetBlocks iblock maxBlocks create s).ne_fault _,
    fun _ _ => (safe_removeSpaceStep _ _ s).ne_fault _⟩

end Hooks

end EspLwext4
