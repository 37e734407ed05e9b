import EspLwext4.Extent.Split
import EspLwext4.Extent.Lookup

/-!
# Wherever a split or a growth stops

`split_full_node` and `grow_indepth` leave a tree on the disk in which every search
ends at the extent it ended at before, whether they complete or a block cannot be
allocated or obtained on the way. So no mapping is orphaned at any stopping point.
-/

namespace EspLwext4

open Prog Bytes Ranged

variable (inodeRef : InodeRef)

/-- The physical block of `lblock` by the entry in `leaf`, and whether it is unwritten. -/
def ExtentPathNode.resolution (leaf : ExtentPathNode) (lblock : ℕ) : Option (ℕ × Bool) :=
  if leaf.haveExtent ∧ inExtent leaf.extent lblock then
    some (leaf.pblock, extentIsUnwritten leaf.extent)
  else none

/-- What the extents of the tree map `lblock` to. -/
def Disk.mapping (D : Disk) (lblock : ℕ) : Option (ℕ × Bool) :=
  (D.root.items.find? fun e => Covers e lblock).map fun e =>
    (extentGetPblock e + (lblock - first e), extentIsUnwritten e)

/-- `find_extent` resolves `lblock` to `o`, unless one of its own reads fails. -/
def Resolves (s : St) (lblock : ℕ) (o : Option (ℕ × Bool)) : Prop :=
  wp (findExtent inodeRef lblock)
    (fun path _ => ∃ leaf, path.path[path.depth]? = some leaf ∧ leaf.resolution lblock = o)
    (fun err s' => ReadFailed inodeRef s s' .findExtent err) s

/-- Every logical block resolves in `s'` to what the tree of `s` maps it to, as it does in `s`. -/
def ResolvesAlike (s s' : St) : Prop :=
  ∀ lblock : UInt32, Resolves inodeRef s lblock.toNat (s.bytes.mapping lblock.toNat) ∧
    Resolves inodeRef s' lblock.toNat (s.bytes.mapping lblock.toNat)

section Lemmas

variable {inodeRef} {g : Grade} {s s' s'' : St} {d e lblock : ℕ} {t : SepTree Ext4Extent d}
variable {base : Multiset ℕ}

/-! ## Searches that end alike -/

theorem EndsAt.resolution {path : ExtentSearchPath} {leaf : ExtentPathNode}
    (h : EndsAt t lblock path leaf) : leaf.resolution lblock = (t.seek lblock).bind fun x =>
      if inExtent x lblock then
        some (extentGetPblock x + (lblock - first x), extentIsUnwritten x) else none := by
  rw [← h.found]
  unfold ExtentPathNode.resolution ExtentPathNode.found
  rw [h.pblock]
  unfold ExtentPathNode.resolve
  by_cases hhave : leaf.haveExtent = true
  · by_cases hin : inExtent leaf.extent lblock = true
    · simp [hhave, hin]
    · simp [hhave, hin]
  · simp [hhave]

/-- The entry a search on a well-formed tree ends at decides what the block maps to. -/
theorem WellFormed.mapping_eq (h : WellFormed inodeRef s.bytes) (hlblock : lblock ≤ uint32Max) :
    s.bytes.mapping lblock = (s.bytes.root.seek lblock).bind fun x =>
      if inExtent x lblock then
        some (extentGetPblock x + (lblock - first x), extentIsUnwritten x) else none := by
  have hadmitted := h.admitted
  have hin {x : Ext4Extent} (hx : x ∈ s.bytes.root.items) :
      inExtent x lblock = true ↔ Covers x lblock := by
    refine (inExtent_iff (h.extents x hx).inRange hlblock).mpr ?_
    rintro ⟨hstop, -⟩
    have := (h.extents x hx).stop_le
    omega
  unfold Disk.mapping
  rcases hfind : s.bytes.root.items.find? fun x => Covers x lblock with _ | x
  · rcases hseek : s.bytes.root.seek lblock with _ | x
    · rfl
    · have hx := SepTree.seek_mem hseek
      refine (if_neg fun hcov => ?_).symm
      exact List.find?_eq_none.mp hfind x hx (decide_eq_true ((hin hx).mp hcov))
  · have hx := List.mem_of_find?_eq_some hfind
    have hcov : Covers x lblock := by simpa using List.find?_some hfind
    rw [hadmitted.seek_covers hx hcov]
    exact (if_pos ((hin hx).mpr hcov)).symm

/-- A tree in which every search ends as in the well-formed one resolves every block alike. -/
theorem resolvesAlike_of_seek (h : WellFormed inodeRef s.bytes) {t : SepTree Ext4Extent e}
    (hrep : Rep inodeRef g s'.bytes t) (haddr : t.addr = 0) (hfit : t.All (FitAt inodeRef))
    (hseek : ∀ v, t.seek v = s.bytes.root.seek v) : ResolvesAlike inodeRef s s' := by
  intro lblock
  have hlblock : lblock.toNat ≤ uint32Max := Nat.le_of_lt_succ lblock.toNat_lt
  have hmapping := h.mapping_eq hlblock
  constructor
  · refine wp_mono h.admitted.wp_findExtent ?_ fun _ _ h => h.2
    rintro path s₁ ⟨-, leaf, hends⟩
    exact ⟨leaf, hends.node, hends.resolution.trans hmapping.symm⟩
  · refine wp_mono (wp_findExtent_seek hrep haddr (Rep.acceptable_all hrep hfit)) ?_ fun _ _ h => h.2
    rintro path s₁ ⟨-, leaf, hends⟩
    refine ⟨leaf, hends.node, hends.resolution.trans ?_⟩
    rw [hmapping, hseek]

theorem Holding.resolvesAlike (h : WellFormed inodeRef s.bytes) {t : SepTree Ext4Extent e}
    (hold : Holding inodeRef g base s' t) (hseek : ∀ v, t.seek v = s.bytes.root.seek v) :
    ResolvesAlike inodeRef s s' :=
  resolvesAlike_of_seek h hold.rep hold.ok.addr hold.ok.fit hseek

theorem TornTo.resolvesAlike {own : Multiset ℕ} {t t' : SepTree Ext4Extent d}
    (h : WellFormed inodeRef s.bytes) (htorn : TornTo inodeRef g base s'' s' t own t')
    (haddr : t.addr = 0) (hseek : ∀ v, t.seek v = s.bytes.root.seek v) :
    ResolvesAlike inodeRef s s' :=
  resolvesAlike_of_seek h htorn.rep (htorn.addr.trans haddr) htorn.fit
    fun v => (htorn.seek v).trans (hseek v)

/-! ## The level of a path -/

/-- One level of a path that follows the context of its leaf. -/
theorem Follows.level {D : Disk} {ns : List ExtentPathNode} {level : ℕ} :
    ∀ {d : ℕ} {c₀ : Ctx Ext4Extent d e} {u₀ : SepTree Ext4Extent d} {node₀ : ExtentPathNode},
      Follows D ns c₀ → c₀.Chosen lblock → ns[c₀.length]? = some node₀ → CopyOf D node₀ u₀.addr →
      level < c₀.length →
      ∃ (d' : ℕ) (f : Frame Ext4Extent d') (c : Ctx Ext4Extent (d' + 1) e)
        (u : SepTree Ext4Extent d') (parent node : ExtentPathNode), c.length = level ∧
        (Ctx.cons f c).plug u = c₀.plug u₀ ∧ (Ctx.cons f c).Chosen lblock ∧
        ns[c.length]? = some parent ∧ NodeAt D parent f ∧
        ns[c.length + 1]? = some node ∧ CopyOf D node u.addr := by
  intro d c₀
  induction c₀ with
  | nil => exact fun _ _ _ _ hlevel => absurd hlevel (Nat.not_lt_zero level)
  | cons f c ih =>
      intro u₀ node₀ hfollows hchosen hnode hcopy hlevel
      obtain ⟨⟨parent, hparent, hat⟩, hc⟩ := hfollows
      rcases Nat.lt_succ_iff_lt_or_eq.mp hlevel with hlt | rfl
      · exact ih hc hchosen.2.2 hparent hat.copyOf hlt
      · exact ⟨_, f, c, u₀, parent, node₀, rfl, rfl, hchosen, hparent, hat, hnode, hcopy⟩

theorem Located.level {D : Disk} {t : SepTree Ext4Extent e} {path : ExtentSearchPath}
    {c₀ : Ctx Ext4Extent 0 e} {b : ℕ} {es : List Ext4Extent} {leaf : ExtentPathNode} {level : ℕ}
    (h : Located inodeRef D t lblock path c₀ b es leaf) (hlevel : level < path.depth) :
    ∃ (d' : ℕ) (f : Frame Ext4Extent d') (c : Ctx Ext4Extent (d' + 1) e)
      (u : SepTree Ext4Extent d') (parent node : ExtentPathNode), c.length = level ∧
      (Ctx.cons f c).plug u = t ∧ (Ctx.cons f c).Chosen lblock ∧
      path.path[c.length]? = some parent ∧ NodeAt D parent f ∧
      path.path[c.length + 1]? = some node ∧ CopyOf D node u.addr := by
  rw [h.depth] at hlevel
  have hleaf : path.path[c₀.length]? = some leaf := h.depth ▸ h.leafNode
  rw [← h.plug]
  exact h.along.level h.chosen hleaf ⟨h.leafAt.pblockOfNode, h.leafAt.header⟩ hlevel

/-! ## The two operations -/

/-- Splitting any node of a path. -/
theorem wp_splitFullNode_resolves (hw : WritesSucceed inodeRef)
    (hcnt : inodeRef.blocksCnt ≤ pblockLimit) (h : WellFormed inodeRef s.bytes)
    (hout : HandsOut inodeRef s.bytes.root.below s.trace) {target : ℕ} {path : ExtentSearchPath}
    (hpath : findExtent inodeRef target s = .ok path s') {level : ℕ} (hlevel : level < path.depth) :
    wp (splitFullNode inodeRef path (level + 1)) (fun _ s'' => ResolvesAlike inodeRef s s'')
      (fun _ s'' => ResolvesAlike inodeRef s s'') s' := by
  obtain ⟨hreads, c₀, b, es, leaf, hloc⟩ := wp_ok (wp_findExtent_located h.rep h.treeOk) hpath
  have hold : Holding inodeRef .built s.bytes.root.below s' s.bytes.root :=
    Holding.reads ⟨h.rep, h.treeOk, fun _ ha => ha, hout⟩ hreads
  obtain ⟨d', f, c, u, parent, node, rfl, hplug, -, hparent, hat, hnode, hcopy⟩ := hloc.level hlevel
  rw [← hreads.bytes] at hat hcopy
  have hseek : ∀ v, ((Ctx.cons f c).plug u).seek v = s.bytes.root.seek v := fun v => by rw [hplug]
  have hold' := hold
  rw [← hplug] at hold'
  refine wp_mono (wp_splitFullNode hcnt hold' hnode hcopy hparent hat) ?_ ?_
  · rintro _ s'' ⟨b', k, hk, htwo, hsplit, -, -⟩
    refine hsplit.resolvesAlike h fun v => ?_
    have hsorted := ((Ctx.all_plug c _).mp hsplit.ok.fit).1.self.sortedAt
    have hu := ((Ctx.all_plug _ u).mp hold'.ok.fit).1.self.sortedAt
    rw [← hseek v, Ctx.plug_cons]
    exact Ctx.seek_congr (Frame.seek_split hsorted hu (by omega) hk) c
  · intro err s'' h'
    rcases h' hw with ⟨hback, -⟩ | ⟨-, own, t', htorn⟩
    · exact hback.resolvesAlike h hseek
    · exact htorn.resolvesAlike h hold'.ok.addr hseek

/-- Growing a root with entries. -/
theorem wp_growIndepth_resolves (hw : WritesSucceed inodeRef)
    (hcnt : inodeRef.blocksCnt ≤ pblockLimit) (h : WellFormed inodeRef s.bytes)
    (hout : HandsOut inodeRef s.bytes.root.below s.trace)
    (hne : 0 < (s.bytes.header .root).entriesCount) :
    wp (growIndepth inodeRef) (fun _ s' => ResolvesAlike inodeRef s s')
      (fun _ s' => ResolvesAlike inodeRef s s') s := by
  have hold : Holding inodeRef .built s.bytes.root.below s s.bytes.root :=
    ⟨h.rep, h.treeOk, fun _ ha => ha, hout⟩
  have hcount := h.rep.self.entries.count
  rw [h.treeOk.addr, Place.of_zero] at hcount
  have hkeys : s.bytes.root.keys ≠ [] := fun h0 => by
    rw [h0] at hcount
    exact absurd hcount (Nat.pos_iff_ne_zero.mp hne)
  obtain ⟨k, ks, hk⟩ := List.exists_cons_of_ne_nil hkeys
  refine wp_mono (wp_growIndepth (k := k) hcnt hold (by rw [hk]; rfl)) ?_ ?_
  · rintro _ s' ⟨b, hgrown, -, -⟩
    exact hgrown.resolvesAlike h fun v => SepTree.seek_raise
  · intro err s' h'
    exact (h' hw).1.resolvesAlike h fun v => rfl

end Lemmas

/-- **No stopping point orphans a mapping.** On a well-formed tree, with an allocator that
hands out only free blocks of the volume and only calls that obtain a block failing: wherever
`split_full_node` stops on a node of a search path, and wherever `grow_indepth` stops on a root
with entries, `find_extent` resolves every logical block as before. -/
theorem restructuring_keeps_lookups (inodeRef : InodeRef) (s : St)
    (hw : WritesSucceed inodeRef) (hcnt : inodeRef.blocksCnt ≤ pblockLimit)
    (h : WellFormed inodeRef s.bytes) (hout : HandsOut inodeRef s.bytes.root.below s.trace) :
    (∀ target path s' level, findExtent inodeRef target s = .ok path s' → level < path.depth →
      wp (splitFullNode inodeRef path (level + 1)) (fun _ s'' => ResolvesAlike inodeRef s s'')
        (fun _ s'' => ResolvesAlike inodeRef s s'') s') ∧
    (0 < (s.bytes.header .root).entriesCount →
      wp (growIndepth inodeRef) (fun _ s' => ResolvesAlike inodeRef s s')
        (fun _ s' => ResolvesAlike inodeRef s s') s) :=
  ⟨fun _ _ _ _ hpath hlevel => wp_splitFullNode_resolves hw hcnt h hout hpath hlevel,
    fun hne => wp_growIndepth_resolves hw hcnt h hout hne⟩

/-! ## A growth that completes -/

/-- The log has an allocation. -/
def allocated (tr : List Event) : Bool :=
  tr.any fun ev => match ev with
    | .ballocAllocBlock _ _ => true
    | _ => false

/-- No call fails, and there is one block to allocate. -/
def oneBlockLwext4 : Lwext4 :=
  ⟨fun _ _ => none, fun _ tr => if allocated tr then .error .enospc else .ok 300, 0, fun _ _ => 0⟩

theorem held_of_not_allocated {base : Multiset ℕ} {b : ℕ} :
    ∀ {evs : List Event}, allocated evs = false → b ∈ Ledger.held base (txns evs) → b ∈ base := by
  intro evs
  induction evs with
  | nil => exact fun _ h => h
  | cons ev evs ih =>
      intro hnone hmem
      have hrest : allocated evs = false := by
        unfold allocated at hnone ⊢
        rw [List.any_cons, Bool.or_eq_false_iff] at hnone
        exact hnone.2
      rcases htxn : ev.txn with _ | x
      · rw [txns, List.filterMap_cons_none htxn] at hmem
        exact ih hrest hmem
      · rw [txns, List.filterMap_cons_some htxn] at hmem
        cases x with
        | take b' =>
            unfold Event.txn at htxn
            split at htxn
            · simp [allocated] at hnone
            · cases htxn
            · cases htxn
            · cases htxn
        | give first count =>
            exact ih hrest (Multiset.mem_of_le (Multiset.sub_le_self _ _) hmem)

theorem handsOut_oneBlock {base : Multiset ℕ} (hbase : 300 ∉ base) :
    HandsOut (sampleVolume oneBlockLwext4) base [] := by
  intro goal evs b hb
  have hanswer : (if allocated (evs ++ []) then .error .enospc else .ok 300 : Except Errno ℕ) = .ok b := hb
  rw [List.append_nil] at hanswer
  split at hanswer
  · cases hanswer
  · rename_i hnone
    cases hanswer
    refine ⟨by decide, by decide, fun hmem => hbase ?_⟩
    exact held_of_not_allocated (Bool.eq_false_iff.mpr hnone) hmem

theorem wellFormed_oneExtentDisk : WellFormed (sampleVolume oneBlockLwext4) oneExtentDisk :=
  wellFormed_leafBytes ⟨0, 1, 0, 200⟩ (by decide +kernel) (by decide +kernel)
    ⟨by decide, by decide⟩

theorem fresh_oneExtentDisk : 300 ∉ oneExtentDisk.root.below := by
  have hdepth : oneExtentDisk.rootDepth = 0 := by decide +kernel
  unfold Disk.root
  rw [hdepth]
  exact Multiset.notMem_zero 300

/-- A full leaf under a root with one key. -/
def fullLeafDisk : Disk
  | .root => indexBytes 4 1 [⟨0, 100, 0, 0⟩]
  | .block 100 => fun off =>
      if off < entryOff 0 then headerStore (fun _ => 0) ⟨ext4ExtentMagic, 84, 84, 0, 0⟩ off
      else let i := off / ext4ExtentSize - 1
        extentStore (fun _ => 0) 0 ⟨2 * i, 1, 0, 400 + 2 * i⟩ (off % ext4ExtentSize)
  | .block _ => fun _ => 0

theorem wellFormed_fullLeafDisk : WellFormed (sampleVolume oneBlockLwext4) fullLeafDisk := by
  have hroot : fullLeafDisk.header (Place.of 0) = ⟨ext4ExtentMagic, 1, 4, 1, 0⟩ := by decide +kernel
  have hleaf : fullLeafDisk.header (Place.of 100) = ⟨ext4ExtentMagic, 84, 84, 0, 0⟩ := by
    decide +kernel
  have hslots : fullLeafDisk.slots (Place.of 100) =
      (List.range 84).map fun i => ⟨2 * i, 1, 0, 400 + 2 * i⟩ := by decide +kernel
  have hchildren : (fullLeafDisk.slots .root).map (·.child) = [(0, 100)] := by decide +kernel
  refine wellFormed_of_leaves ?_ hchildren (by decide) (fun c hc => ?_) (by decide) ?_ fun c hc => ?_
  · refine ⟨?_, by rw [hroot], fun h => absurd rfl h⟩
    rw [hroot]
    exact ⟨rfl, by decide, by decide, by decide, Nat.le_refl 4⟩
  · obtain rfl := List.mem_singleton.mp hc
    refine ⟨by decide, by decide, ⟨?_, by rw [hleaf], fun _ hcsum => by cases hcsum⟩, ?_, ?_⟩
    · rw [hleaf]
      exact ⟨rfl, by decide, by decide, by decide, by decide⟩
    · rw [hleaf]
      decide
    · rw [hslots]
      decide
  · rw [List.flatMap_singleton, hslots]
    decide +kernel
  · obtain rfl := List.mem_singleton.mp hc
    rw [hslots]
    intro e he
    obtain ⟨i, hi, rfl⟩ := List.mem_map.mp he
    have hi := List.mem_range.mp hi
    have hlen : extentGetActualLen ⟨2 * i, 1, 0, 400 + 2 * i⟩ = 1 := rfl
    have hpblock : extentGetPblock ⟨2 * i, 1, 0, 400 + 2 * i⟩ = 400 + 2 * i := by
      unfold extentGetPblock
      dsimp only
      omega
    have hcnt : (sampleVolume oneBlockLwext4).blocksCnt = 1000 := rfl
    refine ⟨extentInRange_iff.mpr ?_, ?_⟩
    · rw [hlen, hpblock, hcnt]
      dsimp only
      omega
    · rw [stop_extent, hlen]
      unfold uint32Max
      dsimp only
      omega

theorem fresh_fullLeafDisk : 300 ∉ fullLeafDisk.root.below := by
  have hdepth : fullLeafDisk.rootDepth = 1 := by decide +kernel
  have hchildren : (fullLeafDisk.slots .root).map (·.child) = [(0, 100)] := by decide +kernel
  unfold Disk.root
  rw [hdepth, Disk.tree_one, hchildren]
  intro hmem
  have hmem : 300 ∈ ({100} + 0 : Multiset ℕ) := hmem
  simp at hmem

/-- Splitting a full leaf, and growing a root with one extent; both take the block. -/
theorem restructuring_keeps_lookups_full :
    (∃ path s', findExtent (sampleVolume oneBlockLwext4) 7 ⟨fullLeafDisk, false, []⟩ = .ok path s' ∧
      path.depth = 1 ∧
      wp (splitFullNode (sampleVolume oneBlockLwext4) path 1)
        (fun _ s'' => ResolvesAlike (sampleVolume oneBlockLwext4) ⟨fullLeafDisk, false, []⟩ s'')
        (fun _ s'' => ResolvesAlike (sampleVolume oneBlockLwext4) ⟨fullLeafDisk, false, []⟩ s'')
        s') ∧
    wp (growIndepth (sampleVolume oneBlockLwext4))
      (fun _ s' => ResolvesAlike (sampleVolume oneBlockLwext4) ⟨oneExtentDisk, false, []⟩ s')
      (fun _ s' => ResolvesAlike (sampleVolume oneBlockLwext4) ⟨oneExtentDisk, false, []⟩ s')
      ⟨oneExtentDisk, false, []⟩ := by
  constructor
  · have hdepth : (resultOf (findExtent (sampleVolume oneBlockLwext4) 7
        ⟨fullLeafDisk, false, []⟩)).map (·.depth) = some 1 := by decide +kernel
    obtain ⟨path, hpath, hdepth⟩ := Option.map_eq_some_iff.mp hdepth
    obtain ⟨s', hrun⟩ := resultOf_eq_some hpath
    exact ⟨path, s', hrun, hdepth, (restructuring_keeps_lookups (sampleVolume oneBlockLwext4)
      ⟨fullLeafDisk, false, []⟩ ⟨fun _ _ _ => rfl⟩ (by decide) wellFormed_fullLeafDisk
      (handsOut_oneBlock fresh_fullLeafDisk)).1 7 path s' 0 hrun (by omega)⟩
  · refine (restructuring_keeps_lookups (sampleVolume oneBlockLwext4) ⟨oneExtentDisk, false, []⟩
      ⟨fun _ _ _ => rfl⟩ (by decide) wellFormed_oneExtentDisk
      (handsOut_oneBlock fresh_oneExtentDisk)).2 ?_
    decide +kernel

end EspLwext4
