import EspLwext4.Extent.Notes
import EspLwext4.Extent.View

/-!
# Making room, seen on the table

What `ensure_insert_room` does to the nodes of any disk, whatever they hold: the table it
leaves is computed from the one it found and the blocks it got, and so are the runs that its
checks accept.
-/

namespace EspLwext4

open Prog Bytes

variable (inodeRef : InodeRef)

/-- `D'` is `D` with the header `h` and the entries `es` at `p`. -/
structure Relaid (D D' : Disk) (p : Place) (h : Ext4ExtentHeader) (es : List Ext4Extent) :
    Prop where
  others : ∀ q, q ≠ p → D' q = D q
  header : D'.header p = h
  entries : D'.slots p = es

section Relaid

variable {D D' D'' : Disk} {p : Place} {h h' : Ext4ExtentHeader} {es es' : List Ext4Extent}

theorem Relaid.of_set {d : Bytes} (hD : D' = D.set p d) (hh : headerLoad d = h)
    (hs : slots d = es) : Relaid D D' p h es := by
  subst hD
  refine ⟨fun q hq => D.set_ne d hq, ?_, ?_⟩
  · unfold Disk.header
    rw [Disk.set_self, hh]
  · unfold Disk.slots
    rw [Disk.set_self, hs]

theorem Relaid.trans (h₁ : Relaid D D' p h es) (h₂ : Relaid D' D'' p h' es') :
    Relaid D D'' p h' es' :=
  ⟨fun q hq => (h₂.others q hq).trans (h₁.others q hq), h₂.header, h₂.entries⟩

theorem Relaid.view (h₁ : Relaid D D' p h es) (hne : es ≠ []) :
    D'.view = D.view.set p (.of h.depth h.maxEntriesCount es) := by
  funext q
  by_cases hq : q = p
  · subst hq
    rw [TreeView.set_self]
    exact nodeView_eq h₁.header h₁.entries hne
  · rw [TreeView.set_ne hq]
    exact congrArg nodeView (h₁.others q hq)

end Relaid

section Search

variable {inodeRef} {s : St} {lblock b pos : ℕ} {p : Place} {header : Ext4ExtentHeader}
variable {held : Option ℕ} {path : ExtentSearchPath} {node : ExtentPathNode}

/-! ## Notes of a search -/

theorem onReturn_validateHeader (p : Place) (header : Ext4ExtentHeader) :
    OnReturn (validateHeader inodeRef p.isRoot header) s fun _ s' =>
      s = s' ∧ HeaderOk inodeRef p header :=
  .of_wp (E := fun _ _ => True) (wp_validateHeader.mpr ⟨fun hok => ⟨rfl, hok⟩, fun _ => trivial⟩)

/-- The notes on the entries of a node. -/
theorem noted_entryEvents (s : St) (p : Place) :
    Looked s (s.logAll (entryEvents (s.bytes p) (s.bytes.header p))) (s.bytes.view p).runs := by
  refine ⟨rfl, _, rfl, ?_, ?_⟩
  · unfold entryEvents NodeView.runs NodeView.run
    show _ = (s.bytes.slots p).map fun e => if (s.bytes.header p).depth = 0 then _ else _
    split
    · rw [List.filterMap_map]
      exact congrFun (List.filterMap_eq_map
        (f := fun e => (extentGetPblock e, extentGetActualLen e))) _
    · have hidx : indexLayout.records (s.bytes p) (s.bytes.header p).entriesCount =
          (s.bytes.slots p).map (·.asIndex) := records_asIndex _ _
      rw [hidx, List.map_map, List.filterMap_map]
      exact congrFun (List.filterMap_eq_map
        (f := fun e : Ext4Extent => (indexGetPblock e.asIndex, 1))) _
  · refine List.filterMap_eq_nil_iff.mpr fun ev hev => ?_
    obtain ⟨first, count, rfl⟩ := mem_entryEvents hev
    rfl

theorem onReturn_validateEntries (hok : HeaderOk inodeRef p (s.bytes.header p)) :
    OnReturn (validateEntries inodeRef p (s.bytes.header p)) s fun _ s' =>
      Looked s s' (s.bytes.view p).runs :=
  .of_wp (E := fun _ _ => True) ((wp_validateEntries hok.fits).mpr
    ⟨fun _ => noted_entryEvents s p, fun _ => trivial⟩)

theorem onReturn_validateSelectedEntry {first count : ℕ} (hok : HeaderOk inodeRef p header)
    (hev : checkedEvent s.bytes p header pos = .checked first count) :
    OnReturn (validateSelectedEntry inodeRef p header pos) s fun _ s' =>
      Looked s s' [(first, count)] := by
  refine .of_wp (E := fun _ _ => True) ((wp_validateSelectedEntry hok.fits).mpr
    ⟨fun _ => ?_, fun _ => trivial⟩)
  rw [hev]
  exact ⟨rfl, .log s _⟩

theorem onReturn_peek {α : Type} {off len : ℕ} {f : Bytes → α} {Q : α → St → Prop}
    (h : Q (f (s.bytes p)) s) : OnReturn (peek inodeRef p off len f) s Q := by
  unfold peek access
  refine OnReturn.bind (Q := fun _ s' => s = s') (.ite (fun _ => .pure rfl) fun _ => .crash _) ?_
  rintro _ _ rfl
  refine OnReturn.bind (Q := fun t s' => s = t ∧ s = s') ?_ ?_
  · rintro _ _ ⟨⟩
    exact ⟨rfl, rfl⟩
  · rintro _ _ ⟨rfl, rfl⟩
    exact .pure h

theorem onReturn_loadHeader : OnReturn (loadHeader inodeRef p) s fun header s' =>
    s = s' ∧ header = s.bytes.header p := onReturn_peek ⟨rfl, rfl⟩

theorem onReturn_verifyExtentBlockChecksum :
    OnReturn (verifyExtentBlockChecksum inodeRef (.block b)) s fun _ s' => s = s' :=
  .of_wp (E := fun _ _ => True) (wp_verifyExtentBlockChecksum.mpr ⟨fun _ => rfl, fun _ => trivial⟩)

theorem onReturn_push : OnReturn (path.push node) s fun path' s' =>
    s = s' ∧ path' = { path with path := path.path ++ [node] } :=
  .ite (fun _ => .pure ⟨rfl, rfl⟩) fun _ => .crash _

/-- Every level of the descent accepts the entry it follows. -/
theorem onReturn_findExtentLoop : ∀ (d : ℕ) (p : Place) (header : Ext4ExtentHeader) (b : ℕ)
    (held : Option ℕ) (path : ExtentSearchPath) (s : St), HeaderOk inodeRef p header →
    header.depth = d →
    OnReturn (findExtentLoop inodeRef lblock d p header b held path) s fun r s' =>
      ∃ ns : List ExtentPathNode, r.2.2.2.2.path = path.path ++ ns ∧ HeaderOk inodeRef r.1 r.2.1 ∧
        r.2.1.depth = 0 ∧ Looked s s' (ns.map fun n => (n.pblock, 1))
  | 0, p, header, b, held, path, s, hok, hd => .pure ⟨[], by simp, hok, hd, .refl s⟩
  | d + 1, p, header, b, held, path, s, hok, hd => by
      unfold findExtentLoop
      have hsearch : OnReturn (binsearchIdx inodeRef p header lblock) s fun _ s' => s = s' :=
        .of_wp (E := fun _ _ => True) (wp_binsearchIdx hok.fits (fun _ => rfl) fun _ _ => rfl)
      refine hsearch.bind ?_
      rintro (_ | pos) _ rfl
      · exact (OnReturn.raise _).onError
      have hev : checkedEvent s.bytes p header pos = .checked (indexGetPblock (s.bytes.index p pos)) 1 :=
        if_neg (by omega)
      refine (onReturn_validateSelectedEntry hok hev).onError.bind fun _ s₁ h₁ => ?_
      have hload : OnReturn (loadIndex inodeRef p pos) s₁ fun x s' =>
          s₁ = s' ∧ x = s.bytes.index p pos := by
        refine onReturn_peek ⟨rfl, ?_⟩
        rw [h₁.bytes]
        rfl
      refine hload.bind ?_
      rintro _ _ ⟨rfl, rfl⟩
      refine onReturn_push.bind ?_
      rintro _ _ ⟨rfl, rfl⟩
      refine (onReturn_nodeBlockGet _).onError.bind fun _ s₂ h₂ => ?_
      refine onReturn_verifyExtentBlockChecksum.onError.onError.bind ?_
      rintro _ _ rfl
      refine onReturn_releaseHeld.bind fun _ s₃ h₃ => ?_
      refine onReturn_loadHeader.bind ?_
      rintro header _ ⟨rfl, -⟩
      refine (onReturn_validateHeader (.block (indexGetPblock (s.bytes.index p pos)))
        header).onError.bind ?_
      rintro _ _ ⟨rfl, hok'⟩
      refine .ite (fun _ => (OnReturn.raise _).onError) fun hd' => ?_
      refine (onReturn_findExtentLoop d _ header _ _ _ s₃ hok' (not_not.mp hd')).mono ?_
      rintro r s' ⟨ns, hpath, hok'', hd'', h₄⟩
      refine ⟨_ :: ns, by rw [hpath]; exact List.append_assoc _ _ _, hok'', hd'', ?_⟩
      exact ((h₁.then h₂).then h₃).trans h₄

/-- The leaf has its entry accepted, if it has one. -/
theorem onReturn_findExtentLeaf (hok : HeaderOk inodeRef p header) (hd : header.depth = 0) :
    OnReturn (findExtentLeaf inodeRef lblock p header b held path) s fun path' s' =>
      ∃ leaf, path'.path = path.path ++ [leaf] ∧ Looked s s' (if 0 < leaf.header.entriesCount then
        [(extentGetPblock leaf.extent, extentGetActualLen leaf.extent)] else []) := by
  unfold findExtentLeaf
  have hsearch : OnReturn (binsearchExtent inodeRef p header lblock) s fun r s' =>
      s = s' ∧ r.1 = s.bytes.extent p r.2 :=
    .of_wp (E := fun _ _ => True) (wp_binsearchExtent hok.fits hok.fits_one
      (fun _ => ⟨rfl, rfl⟩) fun _ _ => ⟨rfl, rfl⟩)
  refine hsearch.bind ?_
  rintro ⟨extent, position⟩ _ ⟨rfl, hext⟩
  dsimp only at hext ⊢
  subst hext
  refine .ite (fun h0 => ?_) fun h0 => ?_
  · have hev : checkedEvent s.bytes p header position = .checked
        (extentGetPblock (s.bytes.extent p position))
        (extentGetActualLen (s.bytes.extent p position)) := if_pos hd
    refine (onReturn_validateSelectedEntry hok hev).attempt.bind fun r s₁ h₁ => ?_
    refine onReturn_releaseHeld.bind fun _ s₂ h₂ => ?_
    rcases r with e | a
    · exact .raise e
    · refine onReturn_push.mono ?_
      rintro _ _ ⟨rfl, rfl⟩
      refine ⟨_, rfl, ?_⟩
      rw [if_pos h0]
      exact (h₁ a rfl).then h₂
  · refine onReturn_releaseHeld.bind fun _ s₁ h₁ => ?_
    refine onReturn_push.mono ?_
    rintro _ _ ⟨rfl, rfl⟩
    refine ⟨_, rfl, ?_⟩
    rw [if_neg h0]
    exact h₁

/-- A search accepts all of the root and the entries it follows, and gets no block. -/
theorem onReturn_findExtent : OnReturn (findExtent inodeRef lblock) s fun path s' =>
    ∃ ns leaf, Found inodeRef s lblock path s' ns leaf ∧ Looked s s' (s.bytes.view.searched lblock) := by
  have hfound : OnReturn (findExtent inodeRef lblock) s fun path s' =>
      ∃ ns leaf, Found inodeRef s lblock path s' ns leaf := .of_wp wp_findExtent
  have hnotes : OnReturn (findExtent inodeRef lblock) s fun path s' =>
      ∃ ns leaf, path.path = ns ++ [leaf] ∧ Looked s s' ((s.bytes.view .root).runs ++
        (ns.map fun n => (n.pblock, 1)) ++ if 0 < leaf.header.entriesCount then
          [(extentGetPblock leaf.extent, extentGetActualLen leaf.extent)] else []) := by
    unfold findExtent
    refine onReturn_loadHeader.bind ?_
    rintro _ _ ⟨rfl, rfl⟩
    refine (onReturn_validateHeader .root _).bind ?_
    rintro _ _ ⟨rfl, hok⟩
    refine (onReturn_validateEntries hok).bind fun _ s₁ h₁ => ?_
    refine (onReturn_findExtentLoop _ _ _ _ _ _ s₁ hok rfl).bind ?_
    rintro ⟨p, header, b, held, path⟩ s₂ ⟨ns, hpath, hok', hd, h₂⟩
    refine (onReturn_findExtentLeaf hok' hd).mono ?_
    rintro path' s' ⟨leaf, hpath', h₃⟩
    refine ⟨ns, leaf, ?_, (h₁.trans h₂).trans h₃⟩
    rw [hpath']
    exact congrArg (· ++ [leaf]) hpath
  refine (hfound.and hnotes).mono ?_
  rintro path s' ⟨⟨ns, leaf, hf⟩, ns', leaf', hpath, hlook⟩
  obtain ⟨rfl, hleaf⟩ := List.append_inj' (hf.pathOk.nodes.symm.trans hpath) rfl
  obtain rfl := (List.cons.inj hleaf).1
  exact ⟨ns, leaf, hf, hf.pathOk.view_searched ▸ hlook⟩

end Search

section Rewrites

variable {inodeRef} {s : St} {b pos mid n level key : ℕ} {p : Place} {h : Ext4ExtentHeader}
variable {path : ExtentSearchPath} {node parent : ExtentPathNode} {es : List Ext4Extent}

/-! ## Checking again -/

/-- A node that is checked again is accepted whole, and its depth has not changed. -/
theorem onReturn_recheckNode : OnReturn (recheckNode inodeRef node) s fun _ s' =>
    Looked s s' (s.bytes.view (.block node.pblockOfNode)).runs ∧
      (s.bytes.header (.block node.pblockOfNode)).depth = node.header.depth := by
  unfold recheckNode
  refine onReturn_loadHeader.bind ?_
  rintro _ _ ⟨rfl, rfl⟩
  refine (onReturn_validateHeader (.block node.pblockOfNode) _).bind ?_
  rintro _ _ ⟨rfl, hok⟩
  refine (onReturn_validateEntries hok).bind fun _ s₁ h₁ => .failIf fun hsame => ⟨h₁, ?_⟩
  exact not_not.mp fun hd => hsame (Or.inl hd)

theorem onReturn_node (hnode : path.path[level]? = some node) :
    OnReturn (path.node level) s fun n s' => s = s' ∧ node = n := by
  unfold ExtentSearchPath.node
  rw [hnode]
  exact .pure ⟨rfl, rfl⟩

theorem place_eq_root : node.place = .root ↔ node.pblockOfNode = 0 := by
  unfold ExtentPathNode.place Place.of
  split <;> simp [*]

/-- Naming a block in a node: its entries are accepted again, and its depth is the one the
path saw. -/
theorem onReturn_insertIndexEntry_notes (hnode : path.path[level]? = some node) :
    OnReturn (insertIndexEntry inodeRef path level key b) s fun _ s' =>
      Noted s s' (if node.place = .root then [] else (s.bytes.view node.place).runs) [] ∧
        (node.place = .root ∨ (s.bytes.header node.place).depth = node.header.depth) := by
  have hrecheck (s₀ : St) (h₀ : Looked s s₀ []) : OnReturn (whenever (node.pblockOfNode ≠ 0)
      ((recheckNode inodeRef node).onError (releaseNode inodeRef node))) s₀ fun _ s' =>
      Noted s s' (if node.place = .root then [] else (s.bytes.view node.place).runs) [] ∧
        (node.place = .root ∨ (s.bytes.header node.place).depth = node.header.depth) := by
    refine .whenever (fun hb => (onReturn_recheckNode.mono fun _ s₁ h₁ => ?_).onError) fun hb => ?_
    · rw [if_neg (mt place_eq_root.mp hb), ExtentPathNode.place, Place.of_ne_zero hb]
      rw [h₀.bytes] at h₁
      exact ⟨h₀.noted.after h₁.1.noted, Or.inr h₁.2⟩
    · have hroot := place_eq_root.mpr (not_not.mp hb)
      rw [if_pos hroot]
      exact ⟨h₀.noted, Or.inl hroot⟩
  unfold insertIndexEntry
  refine (onReturn_node hnode).bind ?_
  rintro _ _ ⟨rfl, rfl⟩
  refine .ite (fun _ => .raise _) fun _ => ?_
  dsimp only
  have hget : OnReturn (getForWrite inodeRef .insertIndexEntry node) s fun _ s' => Looked s s' [] :=
    .ite (fun _ => .pure (.refl s)) fun _ => onReturn_nodeBlockGet _
  refine hget.bind fun _ s₀ h₀ => (hrecheck s₀ h₀).bind fun _ s₁ h₁ => ?_
  -- what follows calls the block layer only
  have hrest (pos : ℕ) : Mute (do
      let duplicate ← keyBefore inodeRef node.place pos key
      if duplicate then do
        let _ ← (releaseNode inodeRef node).attempt
        raise .eexist
      else do
        whenever (pos < node.header.entriesCount) do
          moveEntries inodeRef node.place (pos + 1) pos (node.header.entriesCount - pos)
        storeIndex inodeRef node.place pos (indexStorePblock ⟨key, 0, 0, 0⟩ b)
        storeHeader inodeRef node.place
          { node.header with entriesCount := u16 (node.header.entriesCount + 1) }
        finishNode inodeRef node : M Unit) :=
    inert_keyBefore.mute.bind fun _ => .ite
      (fun _ => OnReturn.bind (Q := fun _ _ => True) (fun _ _ _ => trivial) fun _ _ _ => .raise _)
      (inert_moveEntries.whenever.mute.bind fun _ => (inert_storeIndex _).mute.bind fun _ =>
        (inert_storeHeader _).mute.bind fun _ => mute_finishNode node)
  refine OnReturn.bind ((inert_entryInsertPosLoop _ _).mute s₁) fun pos s₂ h₂ => ?_
  exact (hrest pos s₂).mono fun _ _ h₃ => ⟨(h₁.1.then h₂).then h₃, h₁.2⟩

/-! ## The new block -/

theorem onReturn_poke {off len : ℕ} {f : Bytes → Bytes} :
    OnReturn (poke inodeRef p off len f) s fun _ s' => s' = s.setBytes p (f (s.bytes p)) := by
  unfold poke access
  refine OnReturn.bind (Q := fun _ s' => s = s') (.ite (fun _ => .pure rfl) fun _ => .crash _) ?_
  rintro _ _ rfl
  rintro _ _ ⟨⟩
  rfl

theorem onReturn_freeNewMetadataBlock {α : Type} {e : Errno} {Q : α → St → Prop} :
    OnReturn (freeNewMetadataBlock inodeRef b e) s Q :=
  OnReturn.bind (Q := fun _ _ => True) (fun _ _ _ => trivial) fun _ _ _ => .raise _

theorem onReturn_abandonNewBlock {α : Type} {c : M Unit} {e : Errno} {Q : α → St → Prop} :
    OnReturn (abandonNewBlock inodeRef c b e) s Q :=
  OnReturn.bind (Q := fun _ _ => True) (fun _ _ _ => trivial) fun _ _ _ =>
    onReturn_freeNewMetadataBlock

/-- A cleared buffer holds zero entries. -/
theorem records_cleared {d : Bytes} (hn : inodeRef.Fits (.block b) n) :
    extentLayout.records (d.zero 0 inodeRef.blockSize) n = List.replicate n zeroExtent := by
  have hsize : 12 + n * 12 ≤ inodeRef.blockSize := hn
  have hzero (i : ℕ) : extentLayout.get (fun _ => 0) i = zeroExtent := rfl
  rw [extentLayout.records_eq_iff]
  refine ⟨List.length_replicate, fun i hi => ?_⟩
  rw [List.length_replicate] at hi
  rw [List.getElem_replicate, ← hzero i]
  refine extentLayout.get_congr fun k _ hk => zero_of_inside (Nat.zero_le k) ?_
  have hend : k < 12 + i * 12 + 12 := hk
  omega

theorem onReturn_fillNewNode {q : Place} {src depth : ℕ}
    (hrec : extentLayout.records (s.bytes q) (src + n) = es) (hq : inodeRef.Fits q (src + n))
    (hn : n ≤ capacity inodeRef) (hd : depth ≤ 5) :
    OnReturn (fillNewNode inodeRef b ⟨ext4ExtentMagic, u16 n, u16 (capacity inodeRef), depth, 0⟩
      q src n) s fun _ s' => s'.trace = s.trace ∧ Relaid s.bytes s'.bytes (.block b)
        ⟨ext4ExtentMagic, n, capacity inodeRef, depth, 0⟩ (es.drop src) := by
  have hcap := inodeRef.capacity_le
  rw [u16_of_lt (show n < 65536 by omega), u16_of_lt (show capacity inodeRef < 65536 by omega)]
  refine (OnReturn.of_wp (wp_fillNewNode (fits_new hn hd) hrec rfl hq
    (inodeRef.fits_of_le hn))).mono ?_
  rintro _ _ ⟨d, rfl, hh, hs⟩
  exact ⟨rfl, .of_set rfl hh hs⟩

/-- Writing the checksum of a node leaves its header and entries. -/
theorem onReturn_setChecksum (hok : HeaderOk inodeRef (.block b) (s.bytes.header (.block b))) :
    OnReturn (setExtentBlockChecksum inodeRef (.block b) false) s fun _ s' =>
      s'.trace = s.trace ∧ Relaid s.bytes s'.bytes (.block b) (s.bytes.header (.block b))
        (s.bytes.slots (.block b)) := by
  have hstored : Stored s (.block b) (s.bytes.header (.block b)) (s.bytes.slots (.block b)) s :=
    ⟨s.bytes (.block b), (s.setBytes_self _).symm, rfl, rfl⟩
  refine (OnReturn.of_wp (wp_setChecksum_filled hstored hok)).mono ?_
  rintro _ _ ⟨d, rfl, hh, hs, -⟩
  exact ⟨rfl, .of_set rfl hh hs⟩

theorem onReturn_finishBlock (hok : HeaderOk inodeRef (.block b) (s.bytes.header (.block b))) :
    OnReturn (finishBlock inodeRef b) s fun _ s' => Noted s s' [] [] ∧
      Relaid s.bytes s'.bytes (.block b) (s.bytes.header (.block b)) (s.bytes.slots (.block b)) := by
  refine (onReturn_setChecksum hok).onError.bind fun _ s₁ h₁ => ?_
  refine onReturn_nodeBlockPut.mono fun _ s₂ h₂ => ⟨(Noted.of_trace h₁.1).then h₂.noted, ?_⟩
  rw [h₂.bytes]
  exact h₁.2

/-- Cutting a node to its first `mid` entries. -/
theorem onReturn_shortenNode (hok : HeaderOk inodeRef (.block node.pblockOfNode) node.header)
    (hf : node.header.Fits) (hmid : mid ≤ node.header.entriesCount) :
    OnReturn (shortenNode inodeRef node mid) s fun _ s' => Noted s s' [] [] ∧
      Relaid s.bytes s'.bytes (.block node.pblockOfNode) (node.header.withCount mid)
        (extentLayout.records (s.bytes (.block node.pblockOfNode)) mid) := by
  have hcount := hf.entriesCount
  have hfit := hf.withCount (show mid < 65536 by omega)
  unfold shortenNode
  rw [u16_of_lt (show mid < 65536 by omega)]
  refine (onReturn_nodeBlockGet _).bind fun _ s₁ h₁ => ?_
  dsimp only
  have hok' : HeaderOk inodeRef (.block node.pblockOfNode) (node.header.withCount mid) :=
    hok.withCount (Nat.le_trans hmid hok.count)
  refine onReturn_poke.bind fun _ s₂ h₂ => ?_
  have hcut : OnReturn (clear inodeRef (.block node.pblockOfNode) (entryOff mid)
      ((node.header.entriesCount - mid) * ext4ExtentSize)) s₂ fun _ s' =>
      Noted s s' [] [] ∧ Relaid s.bytes s'.bytes (.block node.pblockOfNode)
        (node.header.withCount mid)
        (extentLayout.records (s.bytes (.block node.pblockOfNode)) mid) := by
    refine onReturn_poke.mono ?_
    rintro _ _ rfl
    subst h₂
    refine ⟨h₁.noted.then (.of_trace rfl), .of_set ?_ (headerLoad_shortened hfit)
      (slots_shortened (m := node.header.entriesCount - mid) hfit)⟩
    rw [St.setBytes_setBytes, St.bytes_setBytes, St.bytes_setBytes, Disk.set_self, h₁.bytes]
    rfl
  refine hcut.bind fun _ s₃ h₃ => ?_
  refine (onReturn_finishBlock (by rw [h₃.2.header]; exact hok')).mono fun _ s₄ h₄ =>
    ⟨h₃.1.then h₄.1, ?_⟩
  have hfinished := h₄.2
  rw [h₃.2.header, h₃.2.entries] at hfinished
  exact h₃.2.trans hfinished

theorem records_asExtent (d : Bytes) (n : ℕ) :
    extentLayout.records d n = (indexLayout.records d n).map (·.asExtent) := by
  unfold Layout.records
  rw [List.map_map]
  exact List.map_congr_left fun i _ => extent_get_eq d i

theorem separatorPos_le (xs : List Ext4ExtentIndex) (k : ℕ) : separatorPos xs k ≤ xs.length :=
  (List.takeWhile_prefix _).length_le

/-- Naming the block `b` in the node `node`. -/
theorem onReturn_insertIndexEntry (hnode : path.path[level]? = some node)
    (hheld : Held inodeRef s node) (hkey : key < 4294967296) :
    OnReturn (insertIndexEntry inodeRef path level key b) s fun _ s' =>
      Noted s s' (if node.place = .root then [] else (s.bytes.view node.place).runs) [] ∧
      Relaid s.bytes s'.bytes node.place (node.header.withCount (node.header.entriesCount + 1))
        ((s.bytes.slots node.place).insertIdx
          (separatorPos ((s.bytes.slots node.place).map (·.asIndex)) key) (separator key b)) := by
  have hxs : s.bytes.indexes node.place node.header.entriesCount =
      (s.bytes.slots node.place).map (·.asIndex) := by
    rw [hheld.copy]
    exact s.bytes.indexes_eq
  have hslots : s.bytes.slots node.place =
      (s.bytes.indexes node.place node.header.entriesCount).map (·.asExtent) := by
    rw [hheld.copy]
    exact records_asExtent _ _
  have hedited := OnReturn.of_wp (wp_insertIndexEntry_edited hheld b hnode hkey)
  refine (hedited.and (onReturn_insertIndexEntry_notes hnode)).mono ?_
  rintro _ s' ⟨hedit, hnoted, -⟩
  rw [hxs] at hedit
  have hlen : (((s.bytes.slots node.place).map (·.asIndex)).insertIdx
      (separatorPos ((s.bytes.slots node.place).map (·.asIndex)) key)
      (indexStorePblock ⟨key, 0, 0, 0⟩ b)).length = node.header.entriesCount + 1 := by
    rw [List.length_insertIdx_of_le_length (separatorPos_le _ _), List.length_map, ← hheld.count rfl]
  refine ⟨hnoted, hedit.others, ?_, ?_⟩
  · rw [hedit.header, hlen, ← hheld.copy]
  · have hrec : s'.bytes.slots node.place = extentLayout.records (s'.bytes node.place)
        (node.header.entriesCount + 1) := by
      rw [← hlen]
      exact congrArg (fun h : Ext4ExtentHeader =>
        extentLayout.records (s'.bytes node.place) h.entriesCount) hedit.header
    have hentries := hedit.entries
    rw [hlen] at hentries
    rw [hrec, records_asExtent, hentries, List.map_insertIdx, ← hxs, ← hslots]
    rfl

/-- The last part of a split, once the new block `b` holds the upper half: it is named in the
parent, and the node is cut. -/
theorem onReturn_linkUpper {s₀ : St} {h : Ext4ExtentHeader} {right : List Ext4Extent}
    (hnode : Held inodeRef s₀ node) (hb : node.pblockOfNode ≠ 0)
    (hpath : path.path[level]? = some parent) (hparent : Held inodeRef s₀ parent)
    (hdepth : parent.header.depth = node.header.depth + 1)
    (hlaid : Relaid s₀.bytes s.bytes (.block b) h right) (hd : h.depth = node.header.depth)
    (hright : right ≠ [])
    (hmid : 0 < mid) (hle : mid ≤ node.header.entriesCount) (hkey : firstKey right < 4294967296) :
    OnReturn (do
      (insertIndexEntry inodeRef path level (firstKey right) b).orElse
        (freeNewMetadataBlock inodeRef b)
      shortenNode inodeRef node mid) s fun _ s' =>
      Noted s s' (if parent.place = .root then [] else (s₀.bytes.view parent.place).runs) [] ∧
      s'.bytes.view = ((s₀.bytes.view.set (.block b) (.of h.depth h.maxEntriesCount right)).set
        parent.place (.of parent.header.depth parent.header.maxEntriesCount
          ((s₀.bytes.slots parent.place).insertIdx
            (separatorPos ((s₀.bytes.slots parent.place).map (·.asIndex)) (firstKey right))
            (separator (firstKey right) b)))).set node.place
        (.of node.header.depth node.header.maxEntriesCount
          (extentLayout.records (s.bytes node.place) mid)) := by
  have hplace : node.place = .block node.pblockOfNode := Place.of_ne_zero hb
  have hapart : node.place ≠ parent.place := by
    intro heq
    have hsame : node.header = parent.header := by rw [hnode.copy, hparent.copy, heq]
    rw [hsame] at hdepth
    omega
  by_cases halias : parent.place = .block b
  · -- a parent that was overwritten has the wrong depth now
    refine OnReturn.bind ((onReturn_insertIndexEntry_notes hpath).orElse
      fun _ _ => onReturn_freeNewMetadataBlock) ?_
    rintro _ _ ⟨-, hroot | hsame⟩
    · rw [halias] at hroot
      cases hroot
    · rw [halias, hlaid.header, hd] at hsame
      omega
  have hbytes : s.bytes parent.place = s₀.bytes parent.place := hlaid.others _ halias
  have hview : s.bytes.view parent.place = s₀.bytes.view parent.place := congrArg nodeView hbytes
  have hslots : s.bytes.slots parent.place = s₀.bytes.slots parent.place := congrArg slots hbytes
  have hheld : Held inodeRef s parent :=
    ⟨hparent.copy.trans (congrArg headerLoad hbytes).symm, hparent.ok⟩
  refine OnReturn.bind ((onReturn_insertIndexEntry hpath hheld hkey).orElse
    fun _ _ => onReturn_freeNewMetadataBlock) fun _ s₁ h₁ => ?_
  rw [hview, hslots] at h₁
  have hok := hnode.ok
  rw [hplace] at hok
  refine (onReturn_shortenNode hok (hnode.copy ▸ s₀.bytes.header_fits _) hle).mono fun _ s₂ h₂ =>
    ⟨h₁.1.then h₂.1, ?_⟩
  have hcut := h₂.2
  rw [← hplace, h₁.2.others _ hapart] at hcut
  have hrecords : extentLayout.records (s.bytes node.place) mid ≠ [] :=
    List.ne_nil_of_length_pos (by rw [Layout.length_records]; exact hmid)
  have hinserted : (s₀.bytes.slots parent.place).insertIdx
      (separatorPos ((s₀.bytes.slots parent.place).map (·.asIndex)) (firstKey right))
      (separator (firstKey right) b) ≠ [] := by
    refine List.ne_nil_of_length_pos ?_
    have hpos := separatorPos_le ((s₀.bytes.slots parent.place).map (·.asIndex)) (firstKey right)
    rw [List.length_map] at hpos
    rw [List.length_insertIdx_of_le_length hpos]
    exact Nat.succ_pos _
  rw [hcut.view hrecords, h₁.2.view hinserted, hlaid.view hright]
  rfl

/-- A split on the table: any disk, any new block. -/
theorem onReturn_splitFullNode (hnode : path.path[level]? = some node)
    (hparent : path.path[level - 1]? = some parent) (hn : Held inodeRef s node)
    (hp : Held inodeRef s parent) (hdepth : parent.header.depth = node.header.depth + 1) :
    OnReturn (splitFullNode inodeRef path level) s fun _ s' => ∃ b,
      s'.bytes.view = s.bytes.view.split (capacity inodeRef) b parent.place node.place ∧
      Noted s s' ((s.bytes.view node.place).runs ++
        if parent.place = .root then [] else (s.bytes.view parent.place).runs) [b] := by
  unfold splitFullNode
  refine (onReturn_node hnode).bind ?_
  rintro _ _ ⟨rfl, rfl⟩
  dsimp only
  refine .ite (fun _ => .raise _) fun hguard => ?_
  rw [not_or, not_or, not_or, not_lt] at hguard
  obtain ⟨-, hb, htwo, -⟩ := hguard
  have hplace : node.place = .block node.pblockOfNode := Place.of_ne_zero hb
  refine (onReturn_node hparent).bind ?_
  rintro _ _ ⟨rfl, rfl⟩
  refine .ite (fun _ => .raise _) fun _ => ?_
  refine (onReturn_nodeBlockGet _).bind fun _ s₁ h₁ => ?_
  refine onReturn_recheckNode.onError.bind fun _ s₂ h₂ => ?_
  rw [h₁.bytes, ← hplace] at h₂
  have hlook := h₁.after h₂.1
  refine (onReturn_ballocAllocBlock _).onError.bind fun b s₃ h₃ => ?_
  have hnoted₃ := hlook.noted.trans h₃.2
  have hbytes₃ := h₃.1.trans hlook.bytes
  refine OnReturn.bind (onReturn_transBlockGetNoread.orElse fun _ _ => onReturn_abandonNewBlock)
    fun _ s₄ h₄ => ?_
  have hnoted₄ := hnoted₃.then h₄.noted
  have hbytes₄ := h₄.bytes.trans hbytes₃
  refine onReturn_poke.bind fun _ s₅ h₅ => ?_
  have hnoted₅ : Noted s s₅ _ _ := hnoted₄.then (.of_trace (by rw [h₅]; rfl))
  have hother (q : Place) (hq : q ≠ .block b) : s₅.bytes q = s.bytes q := by
    rw [h₅, St.bytes_setBytes, Disk.set_ne _ _ hq, hbytes₄]
  -- the entries that are still there to be halved
  have hcount := hn.count rfl
  set n := node.header.entriesCount with hndef
  obtain ⟨es, hes⟩ : ∃ es, es = if node.place = .block b then List.replicate n zeroExtent
      else s.bytes.slots node.place := ⟨_, rfl⟩
  have hfits : inodeRef.Fits node.place n := hn.ok.fits
  have hlen : es.length = n := by
    rw [hes]
    split
    · exact List.length_replicate
    · exact hcount.symm
  have hsource : extentLayout.records (s₅.bytes node.place) n = es := by
    rw [hes]
    split_ifs with halias
    · rw [halias] at hfits ⊢
      rw [h₅, St.bytes_setBytes, Disk.set_self]
      exact records_cleared hfits
    · rw [hother _ halias]
      exact hn.records
  have hcap : n ≤ capacity inodeRef := by
    have hmax := hn.ok.max
    rw [hplace] at hmax
    exact Nat.le_trans hn.ok.count hmax
  have hdepth5 : node.header.depth ≤ 5 := hn.ok.depth
  have hsplit : n / 2 + (n - n / 2) = n := by omega
  rw [← hsplit, hplace] at hsource hfits
  refine (onReturn_fillNewNode hsource hfits (by omega) hdepth5).bind fun _ s₆ h₆ => ?_
  set right := es.drop (n / 2) with hright
  have hrightlen : right.length = n - n / 2 := by rw [hright, List.length_drop, hlen]
  have hne : right ≠ [] := List.ne_nil_of_length_pos (by omega)
  have hlaid₆ : Relaid s.bytes s₆.bytes (.block b)
      ⟨ext4ExtentMagic, n - n / 2, capacity inodeRef, node.header.depth, 0⟩ right :=
    ⟨fun q hq => (h₆.2.others q hq).trans (hother q hq), h₆.2.header, h₆.2.entries⟩
  have hload : OnReturn (loadKey inodeRef (.block b) 0) s₆ fun k s' => s₆ = s' ∧ k = firstKey right :=
    onReturn_peek ⟨rfl, key_eq_firstKey hlaid₆.entries hne⟩
  refine hload.bind ?_
  rintro _ _ ⟨rfl, rfl⟩
  refine OnReturn.bind (onReturn_blockSet.orElse fun _ _ => onReturn_abandonNewBlock)
    fun _ s₇ h₇ => ?_
  have hok : HeaderOk inodeRef (.block b)
      ⟨ext4ExtentMagic, n - n / 2, capacity inodeRef, node.header.depth, 0⟩ :=
    headerOk_new (by omega) hdepth5
  rw [← h₇.bytes] at hlaid₆
  refine OnReturn.bind ((onReturn_setChecksum (by rw [hlaid₆.header]; exact hok)).orElse
    fun _ _ => onReturn_abandonNewBlock) fun _ s₈ h₈ => ?_
  have hlaid₈ := h₈.2
  rw [hlaid₆.header, hlaid₆.entries] at hlaid₈
  refine OnReturn.bind (onReturn_nodeBlockPut.orElse fun _ _ => onReturn_freeNewMetadataBlock)
    fun _ s₉ h₉ => ?_
  have hlaid := hlaid₆.trans hlaid₈
  rw [← h₉.bytes] at hlaid
  have hnoted := (((hnoted₅.then (.of_trace h₆.1)).then h₇.noted).then (.of_trace h₈.1)).then h₉.noted
  refine (onReturn_linkUpper hn hb hparent hp hdepth hlaid rfl hne (by omega) (by omega)
    (firstKey_lt hlaid.entries)).mono ?_
  rintro _ s' ⟨hnoted', hview⟩
  refine ⟨b, ?_, by simpa using hnoted.trans hnoted'⟩
  -- the lower half, in the node itself or in the block it was cleared from
  have hlower : extentLayout.records (s₉.bytes node.place) (n / 2) = es.take (n / 2) := by
    by_cases halias : node.place = .block b
    · have hrecords : extentLayout.records (s₉.bytes (.block b)) right.length = right :=
        Disk.records_of_slots hlaid.entries rfl
      rw [halias, ← extentLayout.take_records (show n / 2 ≤ right.length by omega), hrecords,
        hright, hes, if_pos halias, List.drop_replicate, List.take_replicate, List.take_replicate]
      congr 1
      omega
    · rw [hlaid.others _ halias, ← extentLayout.take_records (show n / 2 ≤ n by omega), hn.records,
        hes, if_neg halias]
  have hlength : (s.bytes.view node.place).entries.length = n := hcount.symm
  have hentries : (if node.place = .block b then List.replicate n zeroExtent
      else (s.bytes.view node.place).entries) = es := hes.symm
  have hmeta : (s.bytes.view node.place).depth = node.header.depth ∧
      (s.bytes.view node.place).max = node.header.maxEntriesCount ∧
      (s.bytes.view parent.place).depth = parent.header.depth ∧
      (s.bytes.view parent.place).max = parent.header.maxEntriesCount := by
    rw [hn.copy, hp.copy]
    exact ⟨rfl, rfl, rfl, rfl⟩
  unfold TreeView.split
  dsimp only
  rw [hview, hlower, hlength, hentries, hmeta.1, hmeta.2.1, hmeta.2.2.1, hmeta.2.2.2]
  rfl

/-- Growing on the table. -/
theorem onReturn_growIndepth (hok : HeaderOk inodeRef .root (s.bytes.header .root))
    (h0 : 0 < (s.bytes.header .root).entriesCount) :
    OnReturn (growIndepth inodeRef) s fun _ s' => ∃ b,
      s'.bytes.view = s.bytes.view.grown (capacity inodeRef) b ∧ Noted s s' [] [b] := by
  have hcap := inodeRef.capacity_ge
  have hcount : (s.bytes.header .root).entriesCount ≤ 4 := Nat.le_trans hok.count hok.max
  have hne : s.bytes.slots .root ≠ [] := List.ne_nil_of_length_pos (by rwa [Disk.length_slots])
  unfold growIndepth
  refine onReturn_loadHeader.bind ?_
  rintro _ _ ⟨rfl, rfl⟩
  refine .ite (fun _ => .raise _) fun hdepth => ?_
  have hdepth5 : (s.bytes.header .root).depth + 1 ≤ 5 := Nat.lt_of_not_le hdepth
  refine (onReturn_ballocAllocBlock _).bind fun b s₁ h₁ => ?_
  refine onReturn_transBlockGetNoread.onError.bind fun _ s₂ h₂ => ?_
  refine onReturn_poke.bind fun _ s₃ h₃ => ?_
  have hother (q : Place) (hq : q ≠ .block b) : s₃.bytes q = s.bytes q := by
    rw [h₃, St.bytes_setBytes, Disk.set_ne _ _ hq, h₂.bytes, h₁.1]
  have hnoted₃ : Noted s s₃ [] [b] := (h₁.2.then h₂.noted).then (.of_trace (by rw [h₃]; rfl))
  have hroot : s₃.bytes .root = s.bytes .root := hother .root (fun h => by cases h)
  have hslots : s₃.bytes.slots .root = s.bytes.slots .root := congrArg slots hroot
  dsimp only
  have hfirst : OnReturn (firstLogicalBlockOf inodeRef (s.bytes.header .root).entriesCount) s₃
      fun k s' => s₃ = s' ∧ k = firstKey (s.bytes.slots .root) := by
    unfold firstLogicalBlockOf
    rw [if_pos h0]
    have hload : OnReturn (loadExtent inodeRef .root 0) s₃ fun e s' =>
        s₃ = s' ∧ e.firstBlock = firstKey (s.bytes.slots .root) :=
      onReturn_peek ⟨rfl, key_eq_firstKey hslots hne⟩
    refine hload.bind ?_
    rintro e _ ⟨rfl, he⟩
    exact .pure ⟨rfl, he⟩
  refine hfirst.bind ?_
  rintro _ _ ⟨rfl, rfl⟩
  have hsource : extentLayout.records (s₃.bytes .root) (0 + (s.bytes.header .root).entriesCount) =
      s.bytes.slots .root := Disk.records_of_slots hslots (by rw [Nat.zero_add, Disk.length_slots])
  refine (onReturn_fillNewNode hsource (inodeRef.fits_of_le (by rw [Nat.zero_add]; exact hcount))
    (by omega) (by omega)).bind fun _ s₄ h₄ => ?_
  rw [List.drop_zero] at h₄
  have hlaid₄ : Relaid s.bytes s₄.bytes (.block b) ⟨ext4ExtentMagic,
      (s.bytes.header .root).entriesCount, capacity inodeRef, (s.bytes.header .root).depth, 0⟩
      (s.bytes.slots .root) :=
    ⟨fun q hq => (h₄.2.others q hq).trans (hother q hq), h₄.2.header, h₄.2.entries⟩
  have hnew : HeaderOk inodeRef (.block b) ⟨ext4ExtentMagic, (s.bytes.header .root).entriesCount,
      capacity inodeRef, (s.bytes.header .root).depth, 0⟩ := headerOk_new (by omega) (by omega)
  refine OnReturn.bind ((onReturn_setChecksum (by rw [hlaid₄.header]; exact hnew)).orElse
    fun _ _ => onReturn_abandonNewBlock) fun _ s₅ h₅ => ?_
  have hlaid₅ := h₅.2
  rw [hlaid₄.header, hlaid₄.entries] at hlaid₅
  refine onReturn_nodeBlockPut.onError.bind fun _ s₆ h₆ => ?_
  have hlaid := hlaid₄.trans hlaid₅
  rw [← h₆.bytes] at hlaid
  have hnoted : Noted s s₆ [] [b] :=
    ((hnoted₃.then (.of_trace h₄.1)).then (.of_trace h₅.1)).then h₆.noted
  -- the root
  have hroot₆ : s₆.bytes .root = s.bytes .root := hlaid.others .root (fun h => by cases h)
  have hheader₆ : s₆.bytes.header .root = s.bytes.header .root := congrArg headerLoad hroot₆
  refine onReturn_loadHeader.bind ?_
  rintro _ _ ⟨rfl, rfl⟩
  rw [hheader₆, u16_of_lt (show (s.bytes.header .root).depth + 1 < 65536 by omega)]
  have hfit : (s.bytes.header .root).Fits := s.bytes.header_fits .root
  refine (OnReturn.and (P := fun _ s' => s'.bytes.view = s.bytes.view.grown (capacity inodeRef) b)
    (Q := fun _ s' => Noted s₆ s' [] []) ?_ ?_).mono fun _ s' h => ⟨b, h.1, hnoted.then h.2⟩
  · refine .of_wp (E := fun _ _ => True) (wp_growRoot ⟨hfit.magic, by dsimp only; omega,
      show 4 < 65536 by decide, by dsimp only; omega, hfit.generation⟩ rfl
      (indexStorePblock_fits (firstKey_lt (D := s.bytes) rfl) b) fun s' h' => ?_)
    have hrelaid : Relaid s₆.bytes s'.bytes .root _ _ := ⟨h'.others, h'.header, h'.slots⟩
    rw [hrelaid.view (List.cons_ne_nil _ _), hlaid.view hne]
    rfl
  · exact ((inert_storeHeader _).bind fun _ => inert_clear.bind fun _ =>
      (inert_storeIndex _).bind fun _ => inert_setInodeDirty).mute s₆

end Rewrites

section Loop

variable {inodeRef} {s : St} {lblock level : ℕ} {T : TreeView} {D : Disk}
variable {path : ExtentSearchPath} {node leaf : ExtentPathNode} {ns : List ExtentPathNode}

/-! ## Making room -/

/-- The nodes of a path are copies of acceptable headers. -/
theorem PathOk.held (h : PathOk inodeRef s.bytes lblock path ns leaf) (hnode : node ∈ path.path) :
    Held inodeRef s node := by
  rw [h.nodes] at hnode
  rcases List.mem_append.mp hnode with hn | hn
  · obtain ⟨d, b, hl⟩ := h.levels.mem node hn
    have hcopy : node.header = s.bytes.header node.place := by
      rw [ExtentPathNode.place, hl.pblockOfNode, hl.header]
    exact ⟨hcopy, hl.sane.headerOk⟩
  · obtain rfl := List.mem_singleton.mp hn
    exact ⟨h.leafOk.header, h.leafOk.sane.headerOk⟩

theorem Levels.depth_at {d b d' b' : ℕ} (h : Levels inodeRef D lblock d b ns d' b') :
    ∀ l node, ns[l]? = some node → node.header.depth + l = d := by
  induction h with
  | nil => simp
  | @cons d b d' b' n ns hl _ ih =>
      rintro (_ | l) node hnode
      · obtain rfl : n = node := by simpa using hnode
        rw [hl.header, hl.depth, Nat.add_zero]
      · have := ih l node (by simpa using hnode)
        omega

/-- The depths along a path go down one by one. -/
theorem PathOk.depth_at (h : PathOk inodeRef D lblock path ns leaf) {l : ℕ}
    (hnode : path.path[l]? = some node) : node.header.depth + l = path.depth := by
  have hlen := h.levels.length
  rw [h.nodes] at hnode
  rcases Nat.lt_or_ge l ns.length with hlt | hge
  · rw [List.getElem?_append_left hlt] at hnode
    rw [h.levels.depth_at l node hnode, hlen, h.depth, Nat.zero_add]
  · rw [List.getElem?_append_right hge, List.getElem?_singleton] at hnode
    split at hnode
    · obtain rfl := Option.some.inj hnode
      rw [h.leafOk.header, h.leafOk.depth, h.depth]
      omega
    · cases hnode

/-- The scan of a path is the scan of its places. -/
theorem onReturn_firstFullLevel
    (hfull : ∀ node ∈ path.path, node.header.maxEntriesCount ≤ node.header.entriesCount ↔
      (T node.place).Full) : ∀ (n level : ℕ), 0 < level → level + n = path.path.length →
    OnReturn (firstFullLevel path n level) s fun r s' => s = s' ∧
      match r with
      | none => T.firstFull ((path.path.map (·.place)).drop (level - 1)) = none
      | some l => ∃ parent node, 0 < l ∧ path.path[l - 1]? = some parent ∧
          path.path[l]? = some node ∧
          T.firstFull ((path.path.map (·.place)).drop (level - 1)) = some (parent.place, node.place) := by
  intro n
  induction n with
  | zero =>
      intro level hpos hlen
      refine .pure ⟨rfl, ?_⟩
      obtain ⟨p, hp⟩ : ∃ p, (path.path.map (·.place)).drop (level - 1) = [p] :=
        List.length_eq_one_iff.mp (by rw [List.length_drop, List.length_map]; omega)
      rw [hp]
      rfl
  | succ n ih =>
      intro level hpos hlen
      have hlt : level < path.path.length := by omega
      have hbefore : level - 1 < path.path.length := by omega
      have hget := List.getElem?_eq_getElem hlt
      have hdrop : (path.path.map (·.place)).drop (level - 1) =
          path.path[level - 1].place :: (path.path.map (·.place)).drop level := by
        rw [List.drop_eq_getElem_cons (by rwa [List.length_map]), List.getElem_map,
          Nat.sub_add_cancel hpos]
      have hhere : (path.path.map (·.place)).drop level =
          path.path[level].place :: (path.path.map (·.place)).drop (level + 1) := by
        rw [List.drop_eq_getElem_cons (by rwa [List.length_map]), List.getElem_map]
      have hmem := hfull _ (List.getElem_mem hlt)
      unfold firstFullLevel
      refine (onReturn_node hget).bind ?_
      rintro _ _ ⟨rfl, rfl⟩
      refine .ite (fun hf => .pure ⟨rfl, _, _, hpos, List.getElem?_eq_getElem hbefore, hget, ?_⟩)
        fun hn => ?_
      · rw [hdrop, hhere]
        exact if_pos (hmem.mp hf)
      · refine (ih (level + 1) (Nat.succ_pos _) (by omega)).mono ?_
        rintro r _ ⟨rfl, hr⟩
        have hskip : T.firstFull ((path.path.map (·.place)).drop (level - 1)) =
            T.firstFull ((path.path.map (·.place)).drop level) := by
          rw [hdrop, hhere]
          exact if_neg (mt hmem.mpr hn)
        rw [Nat.add_sub_cancel] at hr
        rw [hskip]
        exact ⟨rfl, hr⟩

/-- What `ensure_insert_room` leaves and accepts, from the table it finds and the blocks it
gets. -/
theorem onReturn_ensureInsertRoomLoop : ∀ (attempts : ℕ) (s : St),
    OnReturn (ensureInsertRoomLoop inodeRef lblock attempts) s fun path s' =>
      ∃ bs s₁ ns leaf, Found inodeRef s₁ lblock path s' ns leaf ∧
        s'.bytes.view = bs.foldl (TreeView.restructured (capacity inodeRef) lblock) s.bytes.view ∧
        Noted s s' (TreeView.accepted (capacity inodeRef) lblock bs s.bytes.view) bs
  | 0, s => .raise _
  | attempts + 1, s => by
      unfold ensureInsertRoomLoop
      refine onReturn_findExtent.bind ?_
      rintro path s₁ ⟨ns, leaf, hf, hlook⟩
      have hpath := hf.pathOk
      have hsane := hpath.sane
      have hlen := hsane.length
      have hpath₁ : PathOk inodeRef s₁.bytes lblock path ns leaf := by rwa [hf.reads.bytes]
      have hview : s₁.bytes.view = s.bytes.view := congrArg Disk.view hf.reads.bytes
      -- every further attempt starts from the table that this one leaves
      have again (s₂ : St) (b : ℕ) (runs : List (ℕ × ℕ))
          (hv : s₂.bytes.view = s.bytes.view.restructured (capacity inodeRef) lblock b)
          (hruns : runs = s.bytes.view.rechecked lblock) (hn : Noted s₁ s₂ runs [b]) :
          OnReturn (ensureInsertRoomLoop inodeRef lblock attempts) s₂ fun path s' =>
            ∃ bs s₁ ns leaf, Found inodeRef s₁ lblock path s' ns leaf ∧
              s'.bytes.view =
                bs.foldl (TreeView.restructured (capacity inodeRef) lblock) s.bytes.view ∧
              Noted s s' (TreeView.accepted (capacity inodeRef) lblock bs s.bytes.view) bs := by
        refine (onReturn_ensureInsertRoomLoop attempts s₂).mono ?_
        rintro path' s' ⟨bs, s₃, ns', leaf', hf', hv', hn'⟩
        refine ⟨b :: bs, s₃, ns', leaf', hf', by rw [hv', hv]; rfl, ?_⟩
        rw [hv, ] at hn'
        rw [hruns] at hn
        have hall := (hlook.noted.trans hn).trans hn'
        rwa [List.nil_append, List.singleton_append] at hall
      have hlt : 0 < path.path.length := by omega
      have hget := List.getElem?_eq_getElem hlt
      have hrootPlace : path.path[0].place = .root :=
        place_eq_root.mpr (hsane.root _ hget)
      have hfull : ∀ node ∈ path.path, node.header.maxEntriesCount ≤ node.header.entriesCount ↔
          (s.bytes.view node.place).Full := by
        intro node hnode
        rw [(hpath.held hnode).copy]
        exact s.bytes.view_full.symm
      have hrootFull := hfull _ (List.getElem_mem hlt)
      rw [hrootPlace] at hrootFull
      refine (onReturn_node hget).bind ?_
      rintro _ _ ⟨rfl, rfl⟩
      refine .ite (fun hroot => ?_) fun hroot => ?_
      · have hrootOk := hpath.rootOk
        have hpos : 0 < (s.bytes.header .root).entriesCount := by
          have := s.bytes.view_full.mp (hrootFull.mp hroot)
          exact Nat.lt_of_lt_of_le hrootOk.pos this
        rw [← hf.reads.bytes] at hrootOk hpos
        refine (onReturn_growIndepth hrootOk hpos).bind ?_
        rintro _ s₂ ⟨b, hv, hn⟩
        refine again s₂ b [] ?_ ?_ hn
        · rw [hv, hview]
          exact (if_pos (hrootFull.mp hroot)).symm
        · exact (if_pos (hrootFull.mp hroot)).symm
      · refine (onReturn_firstFullLevel hfull path.depth 1 Nat.one_pos (by omega)).bind ?_
        rintro (_ | level) _ ⟨rfl, hr⟩
        · exact .pure ⟨[], s, ns, leaf, hf, hview, hlook.noted⟩
        · obtain ⟨parent, node, hpos, hparent, hnode, hfirst⟩ := hr
          rw [Nat.sub_self, List.drop_zero, ← hpath.view_path] at hfirst
          have hheld := hpath₁.held (List.mem_of_getElem? hnode)
          have hheld' := hpath₁.held (List.mem_of_getElem? hparent)
          have hdepth : parent.header.depth = node.header.depth + 1 := by
            have h₁ := hpath.depth_at hnode
            have h₂ := hpath.depth_at hparent
            omega
          refine (onReturn_splitFullNode hnode hparent hheld hheld' hdepth).bind ?_
          rintro _ s₂ ⟨b, hv, hn⟩
          refine again s₂ b _ ?_ ?_ hn
          · rw [hv, hview]
            unfold TreeView.restructured
            rw [if_neg (mt hrootFull.mpr hroot), hfirst]
          · rw [hview]
            unfold TreeView.rechecked
            rw [if_neg (mt hrootFull.mpr hroot), hfirst]

end Loop

end EspLwext4
