import EspLwext4.Extent.Rerouting

/-!
# What a lookup returns and what a removal frees

Every run a lookup reports lies in the volume. Every run a round of
`ext4_extent_remove_space` frees was named by an entry that its checks accepted, but for
one path: a hole punch searches again after making room, and takes slot 0 of an empty leaf
for an extent. Which trees lead there is read off the table of their nodes.
-/

namespace EspLwext4

open Prog

variable (inodeRef : InodeRef)

/-! ## Named runs -/

/-- The blocks `first`, …, `first + count - 1` lie in the volume, and an entry
accepted since the log was `tr₀` named them all. -/
structure Named (tr₀ tr : List Event) (first count : ℕ) : Prop where
  pos : 0 < first
  le : first + count ≤ inodeRef.blocksCnt
  checked : ∃ evs f n, tr = evs ++ tr₀ ∧ .checked f n ∈ evs ∧ f ≤ first ∧ first + count ≤ f + n

/-- Every run freed between `s` and `s'` was named before, since `s`. -/
def FreesNamed (s s' : St) : Prop :=
  ∀ first count r tr, s.trace <:+ tr →
    (.io (.ballocFreeBlocks first count) r :: tr) <:+ s'.trace →
    Named inodeRef s.trace tr first count

/-- Between `s` and `s'` no run was freed. -/
def Silent (s s' : St) : Prop :=
  ∃ evs, s'.trace = evs ++ s.trace ∧ ∀ ev ∈ evs, Event.freesRun ev = false

instance : Allows Silent where
  refl s := ⟨[], rfl, by simp⟩
  trans := by
    rintro s s' s'' ⟨evs, ht, hq⟩ ⟨evs', ht', hq'⟩
    refine ⟨evs' ++ evs, by rw [ht', ht, List.append_assoc], fun ev hev => ?_⟩
    rcases List.mem_append.mp hev with hev | hev
    · exact hq' ev hev
    · exact hq ev hev
  bytes s p d := ⟨[], rfl, by simp⟩
  dirty s := ⟨[], rfl, by simp⟩
  log s ev h := ⟨[ev], rfl, by simpa using h⟩

/-- What a round started in `s` keeps of its log after the search, which ended in
`s₁`. -/
structure FreesSo (s s₁ s' : St) : Prop where
  suffix : s₁.trace <:+ s'.trace
  named : FreesNamed inodeRef s s'

section Lemmas

variable {inodeRef} {s s₁ s₂ s₃ : St} {first count : ℕ} {tr₀ tr tr' : List Event}

theorem Named.mono (h : Named inodeRef tr₀ tr first count) (h' : tr <:+ tr') :
    Named inodeRef tr₀ tr' first count := by
  obtain ⟨evs, f, n, rfl, hmem, h₁, h₂⟩ := h.checked
  obtain ⟨evs', rfl⟩ := h'
  exact ⟨h.pos, h.le, evs' ++ evs, f, n, by rw [List.append_assoc],
    List.mem_append_right _ hmem, h₁, h₂⟩

theorem Silent.suffix (h : Silent s s₁) : s.trace <:+ s₁.trace :=
  let ⟨evs, ht, _⟩ := h
  ⟨evs, ht.symm⟩

/-- What is freed before a stretch that frees nothing. -/
theorem Silent.earlier {r : Option Errno} (h : Silent s s₁)
    (hx : (.io (.ballocFreeBlocks first count) r :: tr) <:+ s₁.trace) :
    (.io (.ballocFreeBlocks first count) r :: tr) <:+ s.trace := by
  obtain ⟨evs, ht, hq⟩ := h
  rw [ht] at hx
  clear ht
  induction evs with
  | nil => exact hx
  | cons ev evs ih =>
      rcases List.suffix_cons_iff.mp hx with heq | hx
      · have hev := hq ev (by simp)
        rw [← (List.cons.inj heq).1] at hev
        cases hev
      · exact ih hx fun ev' hev' => hq ev' (by simp [hev'])

theorem Silent.frees_nothing {r : Option Errno} (h : Silent s s₁) (ht : s.trace <:+ tr) :
    ¬ (.io (.ballocFreeBlocks first count) r :: tr) <:+ s₁.trace := by
  intro hx
  have h₁ := ht.length_le
  have h₂ := (h.earlier hx).length_le
  simp only [List.length_cons] at h₂
  omega

theorem FreesNamed.of_silent (h : Silent s s₁) : FreesNamed inodeRef s s₁ :=
  fun _ _ _ _ ht hx => absurd hx (h.frees_nothing ht)

/-- A stretch that frees no run. -/
theorem FreesNamed.silent (h : FreesNamed inodeRef s s₂) (h' : Silent s₂ s₃) :
    FreesNamed inodeRef s s₃ :=
  fun first count r tr ht hx => h first count r tr ht (h'.earlier hx)

theorem FreesSo.silent (h : FreesSo inodeRef s s₁ s₂) (h' : Silent s₂ s₃) :
    FreesSo inodeRef s s₁ s₃ := ⟨h.suffix.trans h'.suffix, h.named.silent h'⟩

/-- Freeing a named run. -/
theorem FreesSo.free (h : FreesSo inodeRef s s₁ s₂)
    (hn : Named inodeRef s.trace s₂.trace first count) (r : Option Errno) :
    FreesSo inodeRef s s₁ (s₂.log (.io (.ballocFreeBlocks first count) r)) := by
  refine ⟨h.suffix.trans (s₂.suffix_log _), fun first' count' r' tr' ht hx => ?_⟩
  rcases List.suffix_cons_iff.mp hx with heq | hx
  · obtain ⟨heq, rfl⟩ := List.cons.inj heq
    cases heq
    exact hn
  · exact h.named first' count' r' tr' ht hx

theorem wp_ballocFreeBlocks_named (h : FreesSo inodeRef s s₁ s₂)
    (hn : Named inodeRef s.trace s₂.trace first count) :
    wp (ballocFreeBlocks inodeRef first count) (fun _ => FreesSo inodeRef s s₁)
      (fun _ => FreesSo inodeRef s s₁) s₂ :=
  wp_ballocFreeBlocks.mpr ⟨fun _ => h.free hn none, fun e _ => h.free hn (some e)⟩

/-- A program that frees no run, run in the middle of a round. -/
theorem FreesSo.keeps {α : Type} {m : M α} (h : FreesSo inodeRef s s₁ s₂)
    (hm : Keeps Silent m s₂) :
    wp m (fun _ => FreesSo inodeRef s s₁) (fun _ => FreesSo inodeRef s s₁) s₂ :=
  wp_mono hm (fun _ _ h' => h.silent h') fun _ _ h' => h.silent h'

/-- A logged check names what it checked. -/
theorem Named.of_logged {f n : ℕ} (h : LoggedSince s s₁ (.checked f n)) (hpos : 0 < first)
    (hle : first + count ≤ inodeRef.blocksCnt) (h₁ : f ≤ first) (h₂ : first + count ≤ f + n) :
    Named inodeRef s.trace s₁.trace first count :=
  let ⟨evs, ht, hmem⟩ := h
  ⟨hpos, hle, evs, f, n, ht, hmem, h₁, h₂⟩

/-- Part of a checked extent. -/
theorem Named.of_extent {e : Ext4Extent}
    (h : LoggedSince s s₁ (.checked (extentGetPblock e) (extentGetActualLen e)))
    (hr : extentInRange inodeRef e = true) (h₁ : extentGetPblock e ≤ first)
    (h₂ : first + count ≤ extentGetPblock e + extentGetActualLen e) :
    Named inodeRef s.trace s₁.trace first count := by
  obtain ⟨-, -, h₃, h₄⟩ := extentInRange_iff.mp hr
  exact .of_logged h (by omega) (by omega) h₁ h₂

end Lemmas

/-! ## Lookups -/

section Lookup

variable {inodeRef} {s : St}

/-- A lookup reports blocks of the volume only. -/
theorem wp_getBlocks_lookup (iblock maxBlocks : UInt32) :
    wp (ext4ExtentGetBlocks inodeRef iblock maxBlocks false)
      (fun r _ => r.1 ≠ 0 → 0 < r.1 ∧ r.1 + r.2 ≤ inodeRef.blocksCnt) (fun _ _ => True) s := by
  unfold ext4ExtentGetBlocks
  dsimp only
  rw [wp_bind]
  refine wp_mono wp_findExtent ?_ fun _ _ _ => trivial
  rintro path s₁ ⟨ns, leaf, hf⟩
  have hget : path.path[path.depth]? = some leaf := by
    rw [hf.pathOk.nodes, hf.pathOk.depth]; simp
  rw [wp_bind, wp_node]
  refine ⟨leaf, hget, (wp_ite _ _ _).mpr ⟨fun hm => ?_, fun _ => ?_⟩⟩
  · refine (wp_ite _ _ _).mpr ⟨fun _ => ?_, fun _ => ?_⟩
    · rw [if_neg (by simp)]
      exact fun h => absurd rfl h
    · obtain ⟨-, h0, hin⟩ := hm
      obtain ⟨h₁, h₂, h₃, h₄⟩ := extentInRange_iff.mp (hf.pathOk.extentInRange h0)
      unfold inExtent at hin
      simp only [Bool.and_eq_true, decide_eq_true_eq] at hin
      have hlt : iblock.toNat < leaf.extent.firstBlock + extentGetActualLen leaf.extent := by
        rcases Nat.lt_or_ge (leaf.extent.firstBlock + extentGetActualLen leaf.extent) 4294967296
          with h | h
        · rw [u32_of_lt h] at hin; exact hin.2
        · have := iblock.toNat_lt; omega
      have hlen := Ext4Extent.len_le (e := leaf.extent)
        (by rw [hf.pathOk.leafOk.extent]; exact extentLoad_fits _ _)
      have hsub : sub32 (extentGetActualLen leaf.extent) (iblock.toNat - leaf.extent.firstBlock) =
          extentGetActualLen leaf.extent - (iblock.toNat - leaf.extent.firstBlock) :=
        sub32_of_le (by omega) (by omega)
      rw [wp_pure, hsub]
      intro _
      constructor
      · omega
      · have := Nat.min_le_right maxBlocks.toNat
          (extentGetActualLen leaf.extent - (iblock.toNat - leaf.extent.firstBlock))
        omega
  · rw [if_pos rfl]
    exact fun h => absurd rfl h

end Lookup

/-! ## Removing whole extents and nodes -/

section Remove

variable {inodeRef} {s s₁ : St} {lblock first last : ℕ} {path : ExtentSearchPath}
variable {ns : List ExtentPathNode} {leaf : ExtentPathNode}

theorem Found.start (h : Found inodeRef s lblock path s₁ ns leaf) : FreesSo inodeRef s s₁ s₁ :=
  ⟨List.suffix_rfl, .of_silent (Allows.of_reads h.reads)⟩

/-- The child an index level followed. -/
theorem Found.child_named {s₂ : St} (h : Found inodeRef s lblock path s₁ ns leaf)
    (hs : s₁.trace <:+ s₂.trace) {level : ℕ} {node : ExtentPathNode} (hlevel : level < path.depth)
    (hnode : path.path[level]? = some node) :
    Named inodeRef s.trace s₂.trace (indexGetPblock node.index) 1 := by
  rw [h.pathOk.depth] at hlevel
  rw [h.pathOk.nodes, List.getElem?_append_left hlevel] at hnode
  have hmem := List.mem_of_getElem? hnode
  obtain ⟨d, b, hl⟩ := h.pathOk.levels.mem node hmem
  obtain ⟨h₁, h₂⟩ := hl.child
  rw [← hl.pblock]
  exact .of_logged ((h.checkedIndex node hmem).mono hs) (by omega) (by omega) (Nat.le_refl _)
    (Nat.le_refl _)

/-- `remove_index` frees children the search followed. -/
theorem wp_removeIndex_named (h : Found inodeRef s lblock path s₁ ns leaf) :
    ∀ (depth : ℕ) (s₂ : St), depth < path.depth → FreesSo inodeRef s s₁ s₂ →
      wp (removeIndex inodeRef path depth) (fun _ => FreesSo inodeRef s s₁)
        (fun _ => FreesSo inodeRef s s₁) s₂ := by
  have hsane := h.pathOk.sane
  have step (depth : ℕ) (removeParent : M Unit) (s₂ : St) (hd : depth < path.depth)
      (h₂ : FreesSo inodeRef s s₁ s₂)
      (hp : depth ≠ 0 → ∀ s₃, FreesSo inodeRef s s₁ s₃ →
        wp removeParent (fun _ => FreesSo inodeRef s s₁) (fun _ => FreesSo inodeRef s s₁) s₃) :
      wp (removeIndexStep inodeRef path depth removeParent) (fun _ => FreesSo inodeRef s s₁)
        (fun _ => FreesSo inodeRef s s₁) s₂ := by
    have hlt : depth < path.path.length := by rw [hsane.length]; omega
    have hget := List.getElem?_eq_getElem hlt
    have hn := hsane.sane _ (List.getElem_mem hlt)
    unfold removeIndexStep
    rw [wp_bind, wp_node]
    refine ⟨_, hget, ?_⟩
    generalize path.path[depth] = node at hget hn
    rw [wp_bind]
    refine wp_mono (h₂.keeps (keeps_getForWrite _ node)) (fun _ s₃ h₃ => ?_) fun _ _ h' => h'
    rw [wp_bind]
    refine wp_mono (h₃.keeps (keeps_dropIndex hn (hsane.index depth hd node hget)))
      (fun firstAfter s₄ h₄ => ?_) fun _ _ h' => h'
    rw [wp_bind]
    refine wp_mono (h₄.keeps (keeps_finishNode node)) (fun _ s₅ h₅ => ?_) fun _ _ h' => h'
    rw [wp_bind]
    refine wp_mono (wp_ballocFreeBlocks_named h₅ (h.child_named h₅.suffix hd hget))
      (fun _ s₆ h₆ => ?_) fun _ _ h' => h'
    dsimp only
    generalize u16 (sub32 node.header.entriesCount 1) = left
    rw [wp_bind]
    refine wp_mono (h₆.keeps (.whenever fun _ => keeps_correctIndexes hsane _ _ s₆
      (Nat.le_of_lt hd))) (fun _ s₇ h₇ => ?_) fun _ _ h' => h'
    refine (wp_ite _ _ _).mpr ⟨fun _ => (wp_ite _ _ _).mpr ⟨fun _ => ?_, fun h0 => ?_⟩,
      fun _ => h₇⟩
    · exact h₇.keeps keeps_collapseRoot
    · refine hp ?_ s₇ h₇
      rintro rfl
      exact h0 (hsane.root node hget)
  intro depth
  induction depth with
  | zero => exact fun s₂ hd h₂ => step 0 _ s₂ hd h₂ fun h0 => absurd rfl h0
  | succ depth ih =>
      exact fun s₂ hd h₂ => step (depth + 1) _ s₂ hd h₂ fun _ s₃ h₃ => ih s₃ (by omega) h₃

/-- Getting a node for writing changes no byte. -/
theorem wp_getForWrite_silent (site : Site) (node : ExtentPathNode) :
    wp (getForWrite inodeRef site node) (fun _ s' => Silent s s' ∧ s'.bytes = s.bytes)
      (fun _ s' => Silent s s') s := by
  refine (wp_ite _ _ _).mpr ⟨fun _ => ⟨StepRel.refl _, rfl⟩, fun _ => ?_⟩
  exact wp_mono (wp_nodeBlockGet_reads _ _) (fun _ _ h' => ⟨Allows.of_reads h', h'.bytes⟩)
    fun _ _ h' => Allows.of_reads h'.1

theorem wp_rewriteLeaf_named {s₂ : St} (h : Found inodeRef s lblock path s₁ ns leaf)
    (h0 : 0 < leaf.header.entriesCount) (htrim : Trims leaf.extent first last)
    (h₂ : FreesSo inodeRef s s₁ s₂) (hb₂ : s₂.bytes = s₁.bytes) :
    wp (rewriteLeaf inodeRef leaf first last) (fun _ => FreesSo inodeRef s s₁)
      (fun _ => FreesSo inodeRef s s₁) s₂ := by
  have hn := h.pathOk.leafOk.sane
  have hfit := hn.fits hn.headerOk.count
  have hlt := (h.pathOk.leafOk.chosen h0).lt
  have hleaf := h.pathOk.leafOk
  rw [← h.reads.bytes, ← hb₂] at hleaf
  -- the freed blocks are a part of the selected extent
  have hnamed : Named inodeRef s.trace s₂.trace (leaf.extent.cutRun first last).1
      (leaf.extent.cutRun first last).2 := by
    have h₃ := htrim.cut_lt
    have h₄ := htrim.upper
    refine .of_extent ((h.checkedExtent h0).mono h₂.suffix) (h.pathOk.extentInRange h0) ?_ ?_
    · exact Nat.le_add_right _ _
    · unfold Ext4Extent.cutRun
      dsimp only
      omega
  have hloop : wp (removeLeafLoop inodeRef leaf.place leaf first last
      (leaf.header.entriesCount - leaf.position) leaf.position leaf.position
      leaf.header.entriesCount)
      (fun r s' => FreesSo inodeRef s s₁ s' ∧ r.1 ≤ r.2.1 ∧ r.2.1 ≤ leaf.header.entriesCount)
      (fun _ => FreesSo inodeRef s s₁) s₂ := by
    refine wp_removeLeafLoop_one hleaf h0 htrim ?_
    rw [wp_onError, wp_ballocFreeBlocks]
    refine ⟨fun _ => ⟨rfl, ?_⟩, fun e _ => (h₂.free hnamed _).keeps (keeps_releaseNode leaf)⟩
    have hfree := h₂.free hnamed none
    cases leaf.extent.trimmed first last with
    | none => exact ⟨hfree, Nat.le_succ _, hlt⟩
    | some kept => exact ⟨hfree.silent (Allows.bytes _ _ _), Nat.le_refl _, hlt⟩
  unfold rewriteLeaf
  dsimp only
  rw [wp_bind]
  refine wp_mono hloop ?_ fun _ _ h' => h'
  rintro ⟨write, i, count⟩ s₃ ⟨h₃, hw, hi⟩
  dsimp only at hw hi ⊢
  refine h₃.keeps ?_
  exact .bind (.whenever fun hc => keeps_moveEntries (hfit.mono (by omega))
    (hfit.mono (by omega))) fun _ _ => .bind (keeps_storeHeader _ _) fun _ _ => .ite
      (fun _ => .bind (keeps_loadKey (hfit.mono (by omega))) fun _ _ => .pure _) fun _ => .pure _

/-- `remove_leaf` frees part of the selected extent, and nodes that became empty. -/
theorem wp_removeLeaf_named (h : Found inodeRef s lblock path s₁ ns leaf)
    (h0 : 0 < leaf.header.entriesCount) (htrim : Trims leaf.extent first last) :
    wp (removeLeaf inodeRef path first last) (fun _ => FreesSo inodeRef s s₁)
      (fun _ => FreesSo inodeRef s s₁) s₁ := by
  have hsane := h.pathOk.sane
  have hget : path.path[path.depth]? = some leaf := by
    rw [h.pathOk.nodes, h.pathOk.depth]; simp
  unfold removeLeaf
  rw [wp_bind, wp_node]
  refine ⟨leaf, hget, ?_⟩
  rw [wp_bind]
  refine wp_mono (wp_getForWrite_silent _ leaf) ?_ fun _ _ h' => h.start.silent h'
  rintro _ s₂ ⟨h₂, hb₂⟩
  rw [wp_bind]
  refine wp_mono (wp_rewriteLeaf_named h h0 htrim (h.start.silent h₂) hb₂) ?_ fun _ _ h' => h'
  rintro ⟨count, firstAfter⟩ s₃ h₃
  dsimp only
  rw [wp_bind]
  refine wp_mono (h₃.keeps (keeps_finishNode leaf)) (fun _ s₄ h₄ => ?_) fun _ _ h' => h'
  rw [wp_bind]
  refine wp_mono (h₄.keeps (.whenever fun _ => keeps_correctIndexes hsane _ _ s₄ (Nat.le_refl _)))
    (fun _ s₅ h₅ => ?_) fun _ _ h' => h'
  refine (wp_ite _ _ _).mpr ⟨fun _ => (wp_ite _ _ _).mpr ⟨fun _ => h₅, fun hb => ?_⟩, fun _ => h₅⟩
  refine wp_removeIndex_named h _ s₅ ?_ h₅
  rcases Nat.eq_zero_or_pos path.depth with hd | hd
  · exact absurd (hsane.root leaf (by rwa [hd] at hget)) hb
  · omega

end Remove

/-! ## Punching a hole -/

/-- `remove_space` finds the range strictly inside the extent. -/
def PunchesHole (e : Ext4Extent) (first last : ℕ) : Prop :=
  e.firstBlock < first ∧ last < sub32 (u32 (e.firstBlock + extentGetActualLen e)) 1

/-- `remove_middle_of_extent` finds it there, in `uint64_t`. -/
def SpansRange (e : Ext4Extent) (first last : ℕ) : Prop :=
  e.firstBlock < first ∧ last < sub64 (e.firstBlock + extentGetActualLen e) 1

/-- The run a hole punch frees. -/
def punchedRun (e : Ext4Extent) (first last : ℕ) : ℕ × ℕ :=
  (extentGetPblock e + sub32 first e.firstBlock, u32 (sub32 last first + 1))

/-- The run lies in the volume and inside one of `runs`. -/
structure NamedBy (runs : List (ℕ × ℕ)) (run : ℕ × ℕ) : Prop where
  pos : 0 < run.1
  le : run.1 + run.2 ≤ inodeRef.blocksCnt
  covered : ∃ r ∈ runs, r.1 ≤ run.1 ∧ run.1 + run.2 ≤ r.1 + r.2

/-- The tree that `ensure_insert_room` leaves for a search of `lblock`, when the allocator hands
out the blocks `bs` one by one. -/
def Disk.roomy (D : Disk) (lblock : ℕ) (bs : List ℕ) : TreeView :=
  bs.foldl (TreeView.restructured (capacity inodeRef) lblock) D.view

/-- On the disk `D` a round on the range punches a hole on the word of a stale slot, if the
allocator hands out `bs`: the search for `first` ends in an extent around the range, but once
room is made it ends in an empty leaf, whose slot 0 spans the range too and names blocks that
none of the checked entries does. -/
structure PunchesStale (D : Disk) (bs : List ℕ) (first last : ℕ) : Prop where
  nonempty : (D.view.leaf first).entries ≠ []
  punches : PunchesHole ((D.view.leaf first).selected first) first last
  empty : ((D.roomy inodeRef first bs).leaf first).entries = []
  spans : SpansRange ((D.roomy inodeRef first bs).leaf first).slot first last
  unnamed : ¬ NamedBy inodeRef (TreeView.accepted (capacity inodeRef) first bs D.view)
    (punchedRun ((D.roomy inodeRef first bs).leaf first).slot first last)

/-- The test `remove_middle_of_extent` makes after its own search. -/
def RefusesMiddle (leaf : ExtentPathNode) (first last : ℕ) : Prop :=
  leaf.header.maxEntriesCount ≤ leaf.header.entriesCount ∨ first ≤ leaf.extent.firstBlock ∨
    sub64 (leaf.extent.firstBlock + extentGetActualLen leaf.extent) 1 ≤ last

/-- The rewrite between that test and the freeing of the punched run. -/
def rewritePunched (leaf : ExtentPathNode) (first last : ℕ) : M Unit := do
  let ends := splitAround leaf.extent first last
  getForWrite inodeRef .removeMiddleOfExtent leaf
  replaceByTwo inodeRef leaf ends.1 ends.2
  finishNode inodeRef leaf

section Middle

variable {inodeRef} {s s₁ : St} {first last : ℕ} {path : ExtentSearchPath}
variable {leaf : ExtentPathNode} {ns : List ExtentPathNode} {runs : List (ℕ × ℕ)} {bs : List ℕ}

instance (leaf : ExtentPathNode) (first last : ℕ) : Decidable (RefusesMiddle leaf first last) := by
  unfold RefusesMiddle; infer_instance

theorem removeMiddleOfExtent_eq (first last : ℕ) :
    removeMiddleOfExtent inodeRef first last = (do
      let path ← ensureInsertRoom inodeRef first
      let leaf ← path.node path.depth
      if RefusesMiddle leaf first last then raise .eio
      else do
        rewritePunched inodeRef leaf first last
        ballocFreeBlocks inodeRef (punchedRun leaf.extent first last).1
          (punchedRun leaf.extent first last).2) := by
  unfold removeMiddleOfExtent rewritePunched
  simp only [bind_assoc]
  rfl

theorem keeps_rewritePunched {R : St → St → Prop} [Allows R] (hn : NodeSane inodeRef leaf)
    (hroom : leaf.header.entriesCount < leaf.header.maxEntriesCount) :
    Keeps R (rewritePunched inodeRef leaf first last) s :=
  .bind (keeps_getForWrite _ _) fun _ _ => .bind (keeps_replaceByTwo hn hroom _ _)
    fun _ _ => keeps_finishNode _

theorem mute_rewritePunched : Mute (rewritePunched inodeRef leaf first last) :=
  (mute_getForWrite _ leaf).bind fun _ => inert_replaceByTwo.mute.bind fun _ => mute_finishNode leaf

/-- The run punched out of an extent that passed the range tests lies inside it. -/
theorem punchedRun_inside {e : Ext4Extent} (hr : extentInRange inodeRef e = true)
    (hf : e.Fits) (hle : first ≤ last) (hs : SpansRange e first last) :
    punchedRun e first last = (extentGetPblock e + (first - e.firstBlock), last + 1 - first) ∧
    e.firstBlock < first ∧ last + 1 < e.firstBlock + extentGetActualLen e := by
  obtain ⟨h₁, h₂, -, -⟩ := extentInRange_iff.mp hr
  have hlen := e.len_le hf
  unfold SpansRange at hs
  rw [sub64_of_le (by omega) (by omega)] at hs
  unfold punchedRun
  rw [sub32_of_le (by omega) (by omega), sub32_of_le hle (by omega), u32_of_lt (by omega),
    show last - first + 1 = last + 1 - first by omega]
  exact ⟨rfl, by omega, by omega⟩

/-- The log names a run exactly when one of the runs noted in it does. -/
theorem Noted.named_iff {run : ℕ × ℕ} (h : Noted s s₁ runs bs) :
    Named inodeRef s.trace s₁.trace run.1 run.2 ↔ NamedBy inodeRef runs run := by
  obtain ⟨evs, ht, rfl, -⟩ := h
  constructor
  · rintro ⟨hpos, hle, evs', f, n, ht', hmem, h₁, h₂⟩
    refine ⟨hpos, hle, (f, n), ?_, h₁, h₂⟩
    rw [ht] at ht'
    obtain rfl := List.append_cancel_right ht'
    exact List.mem_filterMap.mpr ⟨_, List.mem_reverse.mp hmem, rfl⟩
  · rintro ⟨hpos, hle, r, hr, h₁, h₂⟩
    obtain ⟨ev, hev, heq⟩ := List.mem_filterMap.mp hr
    cases ev with
    | checked f n =>
        obtain rfl : (f, n) = r := Option.some.inj heq
        exact ⟨hpos, hle, evs.reverse, f, n, ht, List.mem_reverse.mpr hev, h₁, h₂⟩
    | io => cases heq
    | ballocAllocBlock => cases heq

/-- The first search of `ensure_insert_room` accepts what the search before it accepted. -/
theorem mem_accepted {cap : ℕ} {T : TreeView} {r : ℕ × ℕ} (h : r ∈ T.searched first) :
    r ∈ TreeView.accepted cap first bs T := by
  cases bs with
  | nil => exact h
  | cons b bs => exact List.mem_append_left _ (List.mem_append_left _ h)

/-- So does the last one, on the tree with room. -/
theorem mem_accepted_roomy {D : Disk} {r : ℕ × ℕ}
    (h : r ∈ (D.roomy inodeRef first bs).searched first) :
    r ∈ TreeView.accepted (capacity inodeRef) first bs D.view := by
  unfold Disk.roomy at h
  generalize D.view = T at h ⊢
  induction bs generalizing T with
  | nil => exact h
  | cons b bs ih => exact List.mem_append_right _ (ih _ h)

/-- Searching twice accepts nothing more. -/
theorem namedBy_searched {cap : ℕ} {T : TreeView} {run : ℕ × ℕ} :
    NamedBy inodeRef (T.searched first ++ TreeView.accepted cap first bs T) run ↔
      NamedBy inodeRef (TreeView.accepted cap first bs T) run := by
  constructor
  · rintro ⟨hpos, hle, r, hr, hcov⟩
    exact ⟨hpos, hle, r, (List.mem_append.mp hr).elim mem_accepted id, hcov⟩
  · rintro ⟨hpos, hle, r, hr, hcov⟩
    exact ⟨hpos, hle, r, List.mem_append_right _ hr, hcov⟩

/-- The run that a hole punch is about to free is named, unless the tree was one of those. -/
theorem punched_named_iff {s₂ s₃ : St} {leaf₁ : ExtentPathNode} {path₁ : ExtentSearchPath}
    {ns₁ : List ExtentPathNode} (hle : first ≤ last)
    (h₁ : PathOk inodeRef s.bytes first path₁ ns₁ leaf₁) (h0 : 0 < leaf₁.header.entriesCount)
    (hpunch : PunchesHole leaf₁.extent first last)
    (hf : Found inodeRef s₁ first path s₂ ns leaf)
    (hview : s₂.bytes.view = s.bytes.roomy inodeRef first bs)
    (hs : SpansRange leaf.extent first last)
    (hnoted : Noted s s₃ (s.bytes.view.searched first ++
      TreeView.accepted (capacity inodeRef) first bs s.bytes.view) bs) :
    Named inodeRef s.trace s₃.trace (punchedRun leaf.extent first last).1
        (punchedRun leaf.extent first last).2 ↔
      ¬ PunchesStale inodeRef s.bytes bs first last := by
  have hpath := hf.pathOk
  rw [← hf.reads.bytes] at hpath
  have hleaf : (s.bytes.roomy inodeRef first bs).leaf first = s₂.bytes.view leaf.place := by
    rw [← hview, hpath.view_leaf]
  have hcount : (s₂.bytes.view leaf.place).entries.length = leaf.header.entriesCount := by
    rw [hpath.leafOk.header]
    exact s₂.bytes.length_view
  rcases Nat.eq_zero_or_pos leaf.header.entriesCount with hnil | hpos
  · have hslot : (s₂.bytes.view leaf.place).slot = leaf.extent := by
      rw [hpath.leafOk.extent, hpath.leafOk.empty hnil]
      rfl
    have hleaf₁ : s.bytes.view.leaf first = s.bytes.view leaf₁.place := h₁.view_leaf
    rw [hnoted.named_iff, namedBy_searched]
    refine ⟨fun h hstale => hstale.unnamed (by rwa [hleaf, hslot]), fun h => ?_⟩
    by_contra hn
    refine h ⟨?_, ?_, ?_, ?_, ?_⟩
    · rw [hleaf₁]
      exact s.bytes.view_ne_nil (h₁.leafOk.header ▸ h0)
    · rw [hleaf₁]
      exact (h₁.leafOk.view).symm ▸ hpunch
    · rw [hleaf]
      exact List.length_eq_zero_iff.mp (hcount.trans hnil)
    · rw [hleaf, hslot]
      exact hs
    · rw [hleaf, hslot]
      exact hn
  · -- an extent the search accepted names the run
    refine iff_of_true (hnoted.named_iff.mpr (namedBy_searched.mpr ?_)) fun hstale => ?_
    · have hr := hpath.extentInRange hpos
      have hfits : leaf.extent.Fits := by
        rw [hpath.leafOk.extent]
        exact extentLoad_fits _ _
      obtain ⟨hrun, h₂, h₃⟩ := punchedRun_inside hr hfits hle hs
      obtain ⟨-, -, h₄, h₅⟩ := extentInRange_iff.mp hr
      rw [hrun]
      refine ⟨by dsimp only; omega, by dsimp only; omega,
        (extentGetPblock leaf.extent, extentGetActualLen leaf.extent), ?_, ?_⟩
      · refine mem_accepted_roomy ?_
        rw [← hview, hpath.view_searched, if_pos hpos]
        exact List.mem_append_right _ (List.mem_singleton_self _)
      · dsimp only
        omega
    · have hempty := hstale.empty
      rw [hleaf] at hempty
      rw [hempty] at hcount
      exact absurd hcount.symm (Nat.pos_iff_ne_zero.mp hpos)

end Middle

/-! ## One round -/

/-- Every run freed between `s` and `s'` was named before, unless the round punched a hole on
the word of a stale slot. -/
def NamedUnlessStale (s s' : St) (first last : ℕ) : Prop :=
  ∀ b n r tr, s.trace <:+ tr → (.io (.ballocFreeBlocks b n) r :: tr) <:+ s'.trace →
    (Named inodeRef s.trace tr b n ↔
      ¬ PunchesStale inodeRef s.bytes (handedOut s.trace tr) first last)

section Round

variable {inodeRef} {s s' : St} {first last : ℕ}

theorem NamedUnlessStale.of_silent (h : Silent s s') : NamedUnlessStale inodeRef s s' first last :=
  fun _ _ _ _ ht hx => absurd hx (h.frees_nothing ht)

theorem NamedUnlessStale.of_named (h : FreesNamed inodeRef s s')
    (hn : ∀ bs, ¬ PunchesStale inodeRef s.bytes bs first last) :
    NamedUnlessStale inodeRef s s' first last :=
  fun b n r tr ht hx => iff_of_true (h b n r tr ht hx) (hn _)

/-- A hole punch frees one run, after all its checks. -/
theorem wp_removeMiddle_named {s₁ : St} {path₁ : ExtentSearchPath} {ns₁ : List ExtentPathNode}
    {leaf₁ : ExtentPathNode} (hle : first ≤ last)
    (hf₁ : Found inodeRef s first path₁ s₁ ns₁ leaf₁)
    (hlook : Looked s s₁ (s.bytes.view.searched first)) (h0 : 0 < leaf₁.header.entriesCount)
    (hpunch : PunchesHole leaf₁.extent first last) :
    wp (removeMiddleOfExtent inodeRef first last)
      (fun _ s' => NamedUnlessStale inodeRef s s' first last)
      (fun _ s' => NamedUnlessStale inodeRef s s' first last) s₁ := by
  have hsilent₁ : Silent s s₁ := Allows.of_reads hf₁.reads
  rw [removeMiddleOfExtent_eq, wp_bind]
  refine wp_mono (wp_remember (keeps_ensureInsertRoom (R := Silent) first s₁)) ?_
    fun _ _ h => .of_silent (StepRel.trans hsilent₁ h.2)
  rintro path s₂ ⟨hens, h₂, hroomy⟩
  have hsilent₂ : Silent s s₂ := StepRel.trans hsilent₁ h₂
  obtain ⟨bs, s₁', ns, leaf, hf, hview, hnoted⟩ := onReturn_ensureInsertRoomLoop _ s₁ path s₂ hens
  have hget : path.path[path.depth]? = some leaf := by
    rw [hf.pathOk.nodes, hf.pathOk.depth]; simp
  rw [wp_bind, wp_node]
  refine ⟨leaf, hget, (wp_ite _ _ _).mpr ⟨fun _ => .of_silent hsilent₂, fun hc => ?_⟩⟩
  have hroom := hroomy.room leaf (List.mem_of_getElem? hget)
  have hrewrite : Keeps Silent (rewritePunched inodeRef leaf first last) s₂ :=
    keeps_rewritePunched hf.pathOk.leafOk.sane hroom
  rw [wp_bind]
  refine wp_mono (wp_remember hrewrite) ?_ fun _ _ h => .of_silent (StepRel.trans hsilent₂ h.2)
  rintro _ s₃ ⟨hrew, h₃⟩
  have hsilent₃ : Silent s s₃ := StepRel.trans hsilent₂ h₃
  have hspans : SpansRange leaf.extent first last := by
    unfold RefusesMiddle at hc
    unfold SpansRange
    omega
  have hviews : s₁.bytes.view = s.bytes.view := congrArg Disk.view hf₁.reads.bytes
  rw [hviews] at hview hnoted
  have hall := (hlook.noted.trans hnoted).then (mute_rewritePunched s₂ () s₃ hrew)
  have hiff := punched_named_iff hle hf₁.pathOk h0 hpunch hf hview hspans hall
  have hlast (r : Option Errno) : NamedUnlessStale inodeRef s (s₃.log
      (.io (.ballocFreeBlocks (punchedRun leaf.extent first last).1
        (punchedRun leaf.extent first last).2) r)) first last := by
    intro b n r' tr ht hx
    rcases List.suffix_cons_iff.mp hx with heq | hx
    · obtain ⟨heq, rfl⟩ := List.cons.inj heq
      cases heq
      rw [hall.handedOut_eq]
      exact hiff
    · exact absurd hx (hsilent₃.frees_nothing ht)
  exact wp_ballocFreeBlocks.mpr ⟨fun _ => hlast none, fun e _ => hlast (some e)⟩

/-- Every round frees named runs only, unless it punches on the word of a stale slot. -/
theorem wp_removeSpaceStep_named (hle : first ≤ last) :
    wp (removeSpaceStep inodeRef first last)
      (fun _ s' => NamedUnlessStale inodeRef s s' first last)
      (fun _ s' => NamedUnlessStale inodeRef s s' first last) s := by
  have hsilent (s' : St) (h : Reads s s') : NamedUnlessStale inodeRef s s' first last :=
    .of_silent (Allows.of_reads h)
  unfold removeSpaceStep
  rw [wp_bind]
  refine wp_mono (wp_remember wp_findExtent) ?_ fun _ _ h => hsilent _ h.2.1
  rintro path s₁ ⟨hfind, -⟩
  obtain ⟨ns, leaf, hf, hlook⟩ := onReturn_findExtent path s₁ hfind
  have hpath := hf.pathOk
  have hget : path.path[path.depth]? = some leaf := by rw [hpath.nodes, hpath.depth]; simp
  rw [wp_bind, wp_node]
  refine ⟨leaf, hget, (wp_ite _ _ _).mpr ⟨fun _ => hsilent _ hf.reads, fun hc => ?_⟩⟩
  have h0 : 0 < leaf.header.entriesCount := by omega
  have hr := hpath.extentInRange h0
  obtain ⟨hlen, hrange, -, -⟩ := extentInRange_iff.mp hr
  dsimp only
  refine (wp_ite _ _ _).mpr ⟨fun hmid => ?_, fun hmid => (wp_ite _ _ _).mpr
    ⟨fun _ => ?_, fun hge => ?_⟩⟩
  · rw [wp_bind]
    exact wp_mono (wp_removeMiddle_named hle hf hlook h0 hmid) (fun _ _ h => h) fun _ _ h => h
  · rw [wp_bind, wp_attempt]
    refine wp_mono (wp_findNextExtent hpath hf.reads) ?_ ?_
    · exact fun x s₂ h => hsilent _ h.2.1
    · rintro e s₂ ⟨h, -⟩
      cases e <;> exact hsilent _ h
  · -- the selected extent is not one to be punched
    have hwhole (bs : List ℕ) : ¬ PunchesStale inodeRef s.bytes bs first last := by
      intro hstale
      have hpunch := hstale.punches
      rw [hpath.view_leaf, show leaf.place = Place.of leaf.pblockOfNode from rfl,
        hpath.leafOk.view] at hpunch
      exact hmid hpunch
    rw [lastBlock_eq hr] at hmid hge ⊢
    have htrim : Trims leaf.extent first
        (if leaf.extent.firstBlock + extentGetActualLen leaf.extent - 1 < last then
          leaf.extent.firstBlock + extentGetActualLen leaf.extent - 1 else last) := by
      refine ⟨by rw [hpath.leafOk.extent]; exact extentLoad_fits _ _, hlen, hrange, by omega, ?_,
        ?_, ?_⟩ <;> split <;> omega
    rw [wp_bind]
    refine wp_mono (wp_removeLeaf_named hf h0 htrim) (fun _ s₂ h => ?_)
      fun _ _ h => .of_named h.named hwhole
    exact (wp_ite _ _ _).mpr ⟨fun _ => .of_named h.named hwhole, fun _ => .of_named h.named hwhole⟩

end Round

/-- Lookups report blocks of the volume, and a round of a removal frees only what
an accepted entry named. -/
structure BlocksNamed (s : St) (iblock maxBlocks first last : UInt32) : Prop where
  lookup : ∀ r s', ext4ExtentGetBlocks inodeRef iblock maxBlocks false s = .ok r s' → r.1 ≠ 0 →
    0 < r.1 ∧ r.1 + r.2 ≤ inodeRef.blocksCnt
  freed : first ≤ last → ∀ s', EndsIn (removeSpaceStep inodeRef first.toNat last.toNat) s s' →
    FreesNamed inodeRef s s'

/-- No call fails, and the allocator always hands out block 300. -/
def block300Lwext4 : Lwext4 := ⟨fun _ _ => none, fun _ _ => .ok 300, 0, fun _ _ => 0⟩

/-- Block 101 is full, and its first keys lie below its separator 10: a split
moves its second child under the key 2 and leaves the empty leaf 103 in charge of
the blocks from 10 on. -/
def staleDisk : Disk
  | .root => indexBytes 4 2 [⟨0, 100, 0, 0⟩, ⟨10, 101, 0, 0⟩]
  | .block 100 => indexBytes 84 1 [⟨0, 102, 0, 0⟩]
  | .block 101 => indexBytes 2 1 [⟨1, 103, 0, 0⟩, ⟨2, 104, 0, 0⟩]
  | .block 103 => leafBytes 84 []
  | .block 104 => leafBytes 84 [⟨10, 20, 0, 500⟩]
  | .block _ => fun _ => 0

/-- The run freed last, when no check in the log covers it. -/
def unnamedFree {α : Type} : Outcome Fault Errno St α → Option (ℕ × ℕ)
  | .ok _ ⟨_, _, .io (.ballocFreeBlocks first count) _ :: tr⟩ =>
      if tr.all (fun ev => match ev with
        | .checked f n => decide (first < f ∨ f + n < first + count)
        | _ => true) then some (first, count) else none
  | _ => none

theorem not_freesNamed_of_unnamedFree {inodeRef : InodeRef} {α : Type} {m : M α} {s : St}
    {run : ℕ × ℕ} (hs : s.trace = []) (h : unnamedFree (m s) = some run) :
    ∃ s', EndsIn m s s' ∧ ¬ FreesNamed inodeRef s s' := by
  unfold unnamedFree at h
  split at h
  case h_1 a bytes dirty first count r tr heq =>
    refine ⟨_, Or.inl ⟨a, heq⟩, fun hnamed => ?_⟩
    obtain ⟨evs, f, n, htr, hev, h₁, h₂⟩ :=
      (hnamed first count r tr (by rw [hs]; exact List.nil_suffix) List.suffix_rfl).checked
    rw [hs, List.append_nil] at htr
    split at h
    case isTrue hall =>
      have := List.all_eq_true.mp hall _ (htr ▸ hev)
      simp only [decide_eq_true_eq] at this
      omega
    case isFalse => cases h
  case h_2 => cases h

end EspLwext4
