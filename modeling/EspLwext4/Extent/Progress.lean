import EspLwext4.Extent.Keys

/-!
# Progress of `ext4_extent_remove_space`

Every round that continues moves `from` forward, except one kind: a round that skips a hole
takes `from` from the first extent under the sibling entry, and nothing compares that extent
with `from` or with the key of the entry. Where the tree given to the call has no key above the
first extent below it, no round does that: the rounds before it make no such key either.
-/

namespace EspLwext4

open Prog Bytes

variable (inodeRef : InodeRef)

/-- The loop of `ext4_extent_remove_space`, started with `from = first` in state
`s`, is about to test `from <= to` with `from = f` in state `s'`. -/
inductive Reached (last first : ℕ) (s : St) : ℕ → St → Prop
  | start : Reached last first s first s
  | round {f next : ℕ} {s₁ s₂ : St} (h : Reached last first s f s₁) (hf : f ≤ last)
      (hstep : removeSpaceStep inodeRef f last s₁ = .ok (some next) s₂) :
      Reached last first s next s₂

/-- Every round that continues increases `from`, and the call comes to an end. -/
structure Terminates (first last : UInt32) (s : St) : Prop where
  progress : ∀ f s₁, Reached inodeRef last.toNat first.toNat s f s₁ → f ≤ last.toNat →
    ∀ next s₂, removeSpaceStep inodeRef f last.toNat s₁ = .ok (some next) s₂ → f < next
  ends : ∃ fuel, ext4ExtentRemoveSpace inodeRef fuel first last s ≠ .fault .outOfFuel

section Lemmas

variable {inodeRef} {s s' s₁ : St} {D D₀ D' : Disk} {lblock f g d b v : ℕ} {p : Place}
variable {path : ExtentSearchPath} {ns : List ExtentPathNode} {node leaf : ExtentPathNode}
variable {es l r : List Ext4Extent} {x : Ext4Extent}

/-! ## Nodes of a path -/

theorem Edited.slots_eq (h : Edited inodeRef extentLayout s s' p es) : s'.bytes.slots p = es := by
  have hcount : (headerLoad (s'.bytes p)).entriesCount = es.length :=
    congrArg Ext4ExtentHeader.entriesCount h.header
  unfold Disk.slots slots
  rw [hcount]
  exact h.entries

theorem Edited.depth_eq (h : Edited inodeRef extentLayout s s' p es) :
    (s'.bytes.header p).depth = (s.bytes.header p).depth :=
  (congrArg Ext4ExtentHeader.depth h.header).trans rfl

/-- The entries around a position. -/
theorem Disk.slots_around {pos : ℕ} (h : pos < (D.header p).entriesCount) :
    ∃ l r, D.slots p = l ++ D.extent p pos :: r ∧ l.length = pos := by
  have hlt : pos < (D.slots p).length := by rwa [Disk.length_slots]
  refine ⟨(D.slots p).take pos, (D.slots p).drop (pos + 1), ?_, ?_⟩
  · rw [← Disk.getElem_slots hlt, List.getElem_cons_drop, List.take_append_drop]
  · rw [List.length_take, Nat.min_eq_left (Nat.le_of_lt hlt)]

theorem LevelOk.congr (h : LevelOk inodeRef D lblock d b node)
    (hD : D' (Place.of b) = D (Place.of b)) : LevelOk inodeRef D' lblock d b node := by
  obtain ⟨hstand, h₁, h₂, hchosen, h₆, h₇, h₈⟩ := h
  have hkey : D'.key (Place.of b) = D.key (Place.of b) := by
    unfold Disk.key
    rw [hD]
  refine ⟨hstand.congr hD, h₁, ?_, ⟨?_, hchosen.lt, ?_, ?_⟩, ?_, ?_, h₈⟩
  · unfold Disk.header at h₂ ⊢
    rwa [hD]
  · rw [hkey]
    exact hchosen.probed
  · rw [hkey]
    exact hchosen.le
  · rw [hkey]
    exact hchosen.next
  · unfold SelectedOk Disk.extent Disk.index Disk.key at h₆ ⊢
    rwa [hD]
  · unfold Disk.index at h₇ ⊢
    rwa [hD]

/-- The entries of an index node around the one that a path follows. -/
theorem LevelOk.around (h : LevelOk inodeRef D lblock d b node) :
    ∃ l x r, D.slots (Place.of b) = l ++ x :: r ∧ node.position = l.length ∧
      node.index = x.asIndex ∧
      SelectedOk inodeRef D (Place.of b) (D.header (Place.of b)) l.length := by
  have hlt := h.chosen.lt
  rw [h.header] at hlt
  obtain ⟨l, r, hs, hl⟩ := Disk.slots_around hlt
  refine ⟨l, _, r, hs, hl.symm, h.index.trans (D.index_eq _ _), ?_⟩
  rw [hl, ← h.header]
  exact h.selected

theorem LeafOk.around (h : LeafOk inodeRef D lblock b leaf) (h0 : 0 < leaf.header.entriesCount) :
    ∃ l r, D.slots (Place.of b) = l ++ leaf.extent :: r ∧ leaf.position = l.length ∧
      SelectedOk inodeRef D (Place.of b) (D.header (Place.of b)) l.length := by
  have hlt := (h.chosen h0).lt
  rw [h.header] at hlt
  obtain ⟨l, r, hs, hl⟩ := Disk.slots_around hlt
  refine ⟨l, r, h.extent ▸ hs, hl.symm, ?_⟩
  rw [hl, ← h.header]
  exact h.selected h0

/-- The index nodes of a path are linked. -/
theorem Levels.mem_linked {top a : ℕ} (h : Levels inodeRef D lblock top a ns d b)
    (ha : Linked inodeRef D top a) : ∀ n ∈ ns, ∃ d b, LevelOk inodeRef D lblock d b n ∧
      Linked inodeRef D (d + 1) b := by
  induction h with
  | nil => simp
  | cons hl ht ih =>
      intro n hn
      rcases List.mem_cons.mp hn with rfl | hn
      · exact ⟨_, _, hl, ha⟩
      · exact ih ((Levels.cons hl (.nil _ _)).linked ha) n hn

/-! ## Renaming the keys above -/

/-- The keys on the way up to a node whose first extent starts at `v`. -/
theorem wp_correctIndexes_keysBelow {top : ℕ} (hv : v < 4294967296) (ns : List ExtentPathNode) :
    ∀ {d b : ℕ} {rest : List ExtentPathNode} (s : St), path.path = ns ++ rest →
    Levels inodeRef D₀ lblock top 0 ns d b → (∀ n ∈ ns, s.bytes n.place = D₀ n.place) →
    KeysBelow inodeRef s.bytes g → (b ≠ 0 → KeyBelow inodeRef s.bytes g d b v) →
    wp (correctIndexes inodeRef path v ns.length) (fun _ s' => KeysBelow inodeRef s'.bytes g)
      (fun _ _ => True) s := by
  induction ns using List.reverseRecOn with
  | nil => exact fun s _ _ _ hk _ => hk
  | append_singleton ns n ih =>
      intro d b rest s hpath hlev hD hk hcov
      obtain ⟨hlev', hl₀, rfl⟩ := hlev.of_concat
      have hl : LevelOk inodeRef s.bytes lblock d n.pblockOfNode n :=
        hl₀.congr (hD n (by simp))
      obtain ⟨l, x, r, hs, hpos, hx, hsel⟩ := hl.around
      have hidx : n.index.Fits := hl.index ▸ indexLoad_fits _ _
      have hy : ({ n.index with firstBlock := v } : Ext4ExtentIndex).Fits :=
        ⟨hv, hidx.leafLo, hidx.leafHi, hidx.padding⟩
      have hchild : indexGetPblock
          ({ n.index with firstBlock := v } : Ext4ExtentIndex).asExtent.asIndex = n.pblock := by
        rw [Ext4ExtentIndex.asIndex_asExtent hy, hl.pblock]
        rfl
      rw [List.length_append, List.length_singleton]
      unfold correctIndexes
      rw [wp_bind, wp_node]
      refine ⟨n, by rw [hpath]; simp, ?_⟩
      rw [wp_bind]
      refine wp_mono (wp_writeIndexAt rfl hl.headerOk hs hpos hy) ?_ fun _ _ _ => trivial
      intro _ s₁ hr
      have hothers := hr.others
      have hheader := hr.header
      -- the first extent below stays
      have hcov₁ : KeyBelow inodeRef s₁.bytes g d n.pblock v := by
        intro hg hedge
        have hlt : d < (s₁.bytes.header (Place.of n.pblockOfNode)).depth := by
          rw [hheader, hl.depth]
          exact Nat.lt_succ_self d
        obtain ⟨hedge', hfirst⟩ := EdgeOk.frame hothers hlt hedge
        unfold Disk.firstBelow
        rw [hfirst]
        exact hcov hl.child.1 hg hedge'
      have hedit : NodeEdit inodeRef g s.bytes s₁.bytes (d + 1) n.pblockOfNode l x
          [({ n.index with firstBlock := v } : Ext4ExtentIndex).asExtent] r := by
        refine ⟨hl.toStanding, by rw [hheader]; exact hl.depth, hs, ?_, hsel,
          Or.inr ⟨d, _, rfl, rfl, ?_, fun _ => ?_⟩⟩
        · rw [hr.slots, List.append_assoc, List.singleton_append]
        · rw [hchild, ← hx, hl.pblock]
        · rw [hchild]
          exact hcov₁
      have hk₁ := (Shrunk.of_edit hedit fun q hq => Or.inl (hothers q hq)).keysBelow hk
      rw [wp_ite]
      refine ⟨fun _ => hk₁, fun h0 => ?_⟩
      -- entry 0 of its node: the same key goes one level up
      refine ih s₁ (by rw [hpath, List.append_assoc]) hlev' (fun m hm => ?_) hk₁
        fun hb hg hedge => ?_
      · rw [hothers, hD m (by simp [hm])]
        intro heq
        have := hlev'.depth_lt m hm
        rw [heq, hl₀.depth] at this
        exact absurd this (Nat.lt_irrefl _)
      · have hnil : l = [] := by
          rw [not_not, hpos] at h0
          exact List.eq_nil_of_length_eq_zero h0
        have hindex : indexGetPblock (s₁.bytes.index (.block n.pblockOfNode) 0) = n.pblock := by
          have hafter := hr.slots
          rw [hnil, List.nil_append, Place.of_ne_zero hb] at hafter
          rw [Disk.index_eq, Disk.extent_zero hafter, hchild]
        have hbelow := hedge.2
        rw [hindex] at hbelow
        rw [Disk.firstBelow_succ, hindex]
        exact hcov₁ hg hbelow

/-! ## Taking out the entry of an emptied node -/

theorem Emptied.congr (h : Emptied inodeRef D₀ D d p) (hD : D' p = D p) :
    Emptied inodeRef D₀ D' d p := by
  obtain ⟨h₁, h₂, h₃⟩ := h
  unfold Disk.header at h₁ h₃
  rw [← hD] at h₁ h₃
  exact ⟨h₁, h₂, h₃⟩

theorem Emptied.mono (h : Emptied inodeRef D₀ D d p) : Emptied inodeRef D₀ D (d + 1) p :=
  let ⟨b, e, hp, he, hst⟩ := h.node
  ⟨h.count, ⟨b, e, hp, Nat.lt_succ_of_lt he, hst⟩, h.depth⟩

/-- A node with one entry, which the search checked, passes all checks. -/
theorem SelectedOk.leftmostOk_single
    (hsel : SelectedOk inodeRef D (Place.of b) (D.header (Place.of b)) 0)
    (hst : Standing inodeRef D d b) (hs : D.slots (Place.of b) = [x]) (hb : b ≠ 0) :
    LeftmostOk inodeRef D d b := by
  have hok : EntriesOk inodeRef D (Place.of b) (D.header (Place.of b)) := by
    have hbetween := hsel.between (l := []) hs
    rw [entriesOk_iff, hs]
    split at hbetween
    · rename_i hd
      rw [if_pos hd]
      exact ⟨by simpa using hbetween.1, List.pairwise_singleton _ _⟩
    · rename_i hd
      rw [if_neg hd]
      exact ⟨by simpa using hbetween.1, List.pairwise_singleton _ _⟩
  obtain ⟨h₁, h₂, h₃⟩ := hst
  have h₃ := h₃ hb
  have hpos := hsel.1
  rw [Place.of_ne_zero hb] at h₁ h₂ h₃ hok hpos
  exact ⟨h₁, h₂, h₃, hok, hpos⟩

/-- A node as high as `d` is not among them. -/
theorem EmptiedBelow.same (h : EmptiedBelow inodeRef D₀ D d)
    (hp : d ≤ (D₀.header p).depth) : D p = D₀ p := by
  rcases h p with hsame | hempty
  · exact hsame
  · obtain ⟨b, e, rfl, he, hst⟩ := hempty.node
    have := hst.depth
    omega

/-- Taking an entry out of an index node and giving the child back. -/
theorem wp_unlink_relisting {Q : Unit → St → Prop} {K : ℕ → M Unit} (hheld : Held inodeRef s node)
    (hs : s.bytes.slots node.place = l ++ x :: r) (hpos : node.position = l.length)
    (hK : ∀ s', Relisting s.bytes s'.bytes node.place (l ++ r) →
      wp (K (firstKey (l ++ r))) Q (fun _ _ => True) s') :
    wp (do
      getForWrite inodeRef .removeIndex node
      let firstAfter ← dropIndex inodeRef node
      finishNode inodeRef node
      removeIndexBlock inodeRef node.index
      K firstAfter) Q (fun _ _ => True) s := by
  rw [wp_bind]
  refine wp_getForWrite .removeIndex (fun s₁ h₁ => ?_) fun _ _ _ _ => trivial
  have hheld₁ : Held inodeRef s₁ node := ⟨by rw [h₁.bytes]; exact hheld.copy, hheld.ok⟩
  have hs₁ : s₁.bytes.slots node.place = l ++ x :: r := by rw [h₁.bytes, hs]
  have hcount := hheld₁.count hs₁
  have hle := hheld.ok.count
  rw [wp_bind]
  refine wp_mono (wp_dropIndex_relists hheld₁ hs₁ hpos) ?_ fun _ _ h => h.elim
  rintro _ s₂ ⟨hrel, -, rfl⟩
  rw [wp_bind]
  refine wp_mono (hheld₁.wp_finish ?_ hrel) ?_ fun _ _ _ => trivial
  · rw [hcount] at hle
    simp only [List.length_append, List.length_cons] at hle ⊢
    omega
  intro _ s₃ h₃
  rw [wp_bind, removeIndexBlock, wp_ballocFreeBlocks]
  refine ⟨fun _ => hK _ ⟨fun q hq => ?_, ?_, h₃.slots_eq⟩, fun _ _ => trivial⟩
  · rw [← h₁.bytes]
    exact h₃.others q hq
  · rw [← h₁.bytes]
    exact h₃.header

/-- One level of `remove_index`: the entry of the emptied child is taken out, and either the node
has others, or it is the root, or it goes the same way. -/
theorem wp_removeIndexStep_keysBelow {removeParent : M Unit} {rest : List ExtentPathNode}
    (hk : KeysBelow inodeRef D₀ g) (hpath : path.path = ns ++ node :: rest)
    (hlev : Levels inodeRef D₀ lblock (D₀.header .root).depth 0 ns (d + 1) node.pblockOfNode)
    (hl : LevelOk inodeRef D₀ lblock d node.pblockOfNode node)
    (hD : EmptiedBelow inodeRef D₀ s.bytes (d + 1)) (hlow : LowEdge inodeRef D₀ g d node.pblock)
    (hparent : node.pblockOfNode ≠ 0 → ∀ s', EmptiedBelow inodeRef D₀ s'.bytes (d + 2) →
      LowEdge inodeRef D₀ g (d + 1) node.pblockOfNode →
      wp removeParent (fun _ s' => KeysBelow inodeRef s'.bytes g) (fun _ _ => True) s') :
    wp (removeIndexStep inodeRef path ns.length removeParent)
      (fun _ s' => KeysBelow inodeRef s'.bytes g) (fun _ _ => True) s := by
  obtain ⟨l, x, r, hs, hpos, hx, hsel⟩ := hl.around
  have hdepth : (D₀.header node.place).depth = d + 1 := hl.depth
  have hsame : s.bytes node.place = D₀ node.place := hD.same (by omega)
  have hheader : s.bytes.header node.place = D₀.header node.place := congrArg headerLoad hsame
  have hslots : s.bytes.slots node.place = l ++ x :: r := (congrArg slots hsame).trans hs
  have hheld : Held inodeRef s node := ⟨hl.header.trans hheader.symm, hl.sane.headerOk⟩
  have hcount := hheld.count hslots
  have hmax := hheld.max_lt
  have hle := hheld.ok.count
  have hleft : u16 (sub32 node.header.entriesCount 1) = (l ++ r).length := by
    rw [hcount] at hle ⊢
    simp only [List.length_append, List.length_cons] at hle ⊢
    rw [sub32_of_le (by omega) (by omega), u16_of_lt (by omega)]
    omega
  rw [hl.pblock, hx] at hlow
  unfold removeIndexStep
  rw [wp_bind, wp_node]
  refine ⟨node, by rw [hpath]; simp, wp_unlink_relisting hheld hslots hpos fun s₁ h₁ => ?_⟩
  have hdepth₁ : (s₁.bytes.header node.place).depth = d + 1 := by
    rw [h₁.header, hheader, ← hdepth]
    rfl
  have hempty (q : Place) (hq : q ≠ node.place) :
      s₁.bytes q = D₀ q ∨ Emptied inodeRef D₀ s₁.bytes (d + 1) q := by
    rw [h₁.others q hq]
    exact (hD q).imp id fun h => h.congr (h₁.others q hq)
  have hedit : NodeEdit inodeRef g D₀ s₁.bytes (d + 1) node.pblockOfNode l x [] r := by
    refine ⟨hl.toStanding, hdepth₁, hs, by rw [List.append_nil]; exact h₁.slots, hsel,
      Or.inl ⟨Or.inr rfl, ?_⟩⟩
    rintro rfl hb hok
    exact hlow.parent hb hs hok
  have hshrunk := Shrunk.of_edit hedit hempty
  have hk₁ := hshrunk.keysBelow hk
  have hslots₁ := h₁.slots
  dsimp only
  rw [hleft, wp_bind, wp_whenever]
  cases hlr : l ++ r with
  | cons z zs =>
      -- other children are left
      have done (s₂ : St) (h₂ : KeysBelow inodeRef s₂.bytes g) :
          wp (if (z :: zs).length = 0 then
            if node.pblockOfNode = 0 then collapseRoot inodeRef else removeParent else pure ())
            (fun _ s' => KeysBelow inodeRef s'.bytes g) (fun _ _ => True) s₂ := by
        rw [if_neg (show ¬ (z :: zs).length = 0 from Nat.succ_ne_zero _)]
        exact h₂
      rw [hlr] at hslots₁
      refine ⟨fun h0 => ?_, fun _ => done s₁ hk₁⟩
      refine wp_mono (wp_correctIndexes_keysBelow (firstKey_lt hslots₁) ns s₁ hpath hlev ?_ hk₁ ?_)
        (fun _ s₂ h₂ => done s₂ h₂) fun _ _ h => h
      · intro n hn
        have hlt := hlev.depth_lt n hn
        have hne : n.place ≠ node.place := by
          intro heq
          rw [heq, hdepth] at hlt
          exact absurd hlt (Nat.lt_irrefl _)
        rw [h₁.others _ hne]
        exact hD.same (by omega)
      · intro hb
        obtain rfl : l = [] := List.eq_nil_of_length_eq_zero (hpos.symm.trans h0.1)
        obtain rfl : r = z :: zs := hlr
        exact hshrunk.keyBelow hk (hlev.linked .root) hl.toStanding hb hs hslots₁
  | nil =>
      obtain ⟨rfl, rfl⟩ := List.append_eq_nil_iff.mp hlr
      refine ⟨fun h0 => absurd h0.2 (Nat.lt_irrefl 0), fun _ => ?_⟩
      rw [if_pos List.length_nil, wp_ite]
      refine ⟨fun _ => wp_collapseRoot_header fun s₂ _ hload => ?_, fun hb => ?_⟩
      · exact keysBelow_of_depth (congrArg Ext4ExtentHeader.depth hload)
      · refine hparent hb s₁ (fun q => ?_)
          (hlow.parent hb hs (hsel.leftmostOk_single hl.toStanding hs hb))
        by_cases hq : q = node.place
        · subst hq
          refine Or.inr ⟨?_, ⟨_, d + 1, rfl, Nat.lt_succ_self _, hl.toStanding⟩,
            hdepth₁.trans hdepth.symm⟩
          rw [← Disk.length_slots, hslots₁]
          rfl
        · exact (hempty q hq).imp id Emptied.mono

theorem removeIndex_eq (path : ExtentSearchPath) (depth : ℕ) :
    removeIndex inodeRef path depth = removeIndexStep inodeRef path depth
      (if depth = 0 then crash .outOfBounds else removeIndex inodeRef path (depth - 1)) := by
  cases depth <;> rfl

/-- The whole climb of `remove_index`. -/
theorem wp_removeIndex_keysBelow (hk : KeysBelow inodeRef D₀ g) (ns : List ExtentPathNode) :
    ∀ {d b : ℕ} {rest : List ExtentPathNode} (s : St), path.path = ns ++ rest → b ≠ 0 →
    Levels inodeRef D₀ lblock (D₀.header .root).depth 0 ns d b →
    EmptiedBelow inodeRef D₀ s.bytes (d + 1) → LowEdge inodeRef D₀ g d b →
    wp (removeIndex inodeRef path (ns.length - 1)) (fun _ s' => KeysBelow inodeRef s'.bytes g)
      (fun _ _ => True) s := by
  induction ns using List.reverseRecOn with
  | nil => exact fun s _ hb hlev => absurd hlev.of_nil.2.symm hb
  | append_singleton ns n ih =>
      intro d b rest s hpath hb hlev hD hlow
      obtain ⟨hlev', hl, rfl⟩ := hlev.of_concat
      rw [List.append_assoc, List.singleton_append] at hpath
      rw [List.length_append, List.length_singleton, Nat.add_sub_cancel, removeIndex_eq]
      refine wp_removeIndexStep_keysBelow hk hpath hlev' hl hD hlow fun hb' s' hD' hlow' => ?_
      have hne : ns.length ≠ 0 := by
        intro h0
        rw [List.eq_nil_of_length_eq_zero h0] at hlev'
        exact hb' hlev'.of_nil.2.symm
      rw [if_neg hne]
      exact ih s' hpath hb' hlev' hD' hlow'

/-! ## One round -/

/-- The leaf: the selected extent is trimmed or taken out. -/
theorem wp_rewriteLeaf_relisting {Q : Unit → St → Prop} {K : ℕ × ℕ → M Unit} {first last : ℕ}
    (hheld : Held inodeRef s leaf) (hs : s.bytes.slots leaf.place = l ++ x :: r)
    (hpos : leaf.position = l.length) (hlower : x.firstBlock ≤ last)
    (hreach : first ≤ sub32 (u32 (x.firstBlock + extentGetActualLen x)) 1)
    (hnext : ∀ y ∈ r.head?, last < y.firstBlock)
    (hK : ∀ s', Relisting s.bytes s'.bytes leaf.place
        (l ++ (trimExtent x first last).2.toList ++ r) →
      wp (K ((l ++ (trimExtent x first last).2.toList ++ r).length,
        firstKey (l ++ (trimExtent x first last).2.toList ++ r))) Q (fun _ _ => True) s') :
    wp (do
      getForWrite inodeRef .removeLeaf leaf
      let res ← rewriteLeaf inodeRef leaf first last
      finishNode inodeRef leaf
      K res) Q (fun _ _ => True) s := by
  have hkept : (l ++ x :: r).take leaf.position ++
      keptEntries first last ((l ++ x :: r).drop leaf.position) =
        l ++ (trimExtent x first last).2.toList ++ r := by
    rw [hpos, List.take_left, List.drop_left, keptEntries_one hlower hreach hnext,
      List.append_assoc]
  rw [wp_bind]
  refine wp_getForWrite .removeLeaf (fun s₁ h₁ => ?_) fun _ _ _ _ => trivial
  have hheld₁ : Held inodeRef s₁ leaf := ⟨by rw [h₁.bytes]; exact hheld.copy, hheld.ok⟩
  have hs₁ : s₁.bytes.slots leaf.place = l ++ x :: r := by rw [h₁.bytes, hs]
  have hcount := hheld₁.count hs₁
  have hle := hheld.ok.count
  have hlen : (l ++ (trimExtent x first last).2.toList ++ r).length ≤
      leaf.header.maxEntriesCount := by
    have : (trimExtent x first last).2.toList.length ≤ 1 := by
      cases (trimExtent x first last).2 <;> simp
    rw [hcount] at hle
    simp only [List.length_append, List.length_cons] at hle ⊢
    omega
  rw [wp_bind]
  refine wp_mono (wp_rewriteLeaf_relists hheld₁ hs₁ (by rw [hpos]; simp)) ?_ fun _ _ _ => trivial
  rintro _ s₂ ⟨hrel, rfl⟩
  rw [hkept] at hrel ⊢
  rw [wp_bind]
  refine wp_mono (hheld₁.wp_finish hlen hrel) ?_ fun _ _ _ => trivial
  intro _ s₃ h₃
  refine hK s₃ ⟨fun q hq => ?_, ?_, h₃.slots_eq⟩
  · rw [← h₁.bytes]
    exact h₃.others q hq
  · rw [← h₁.bytes]
    exact h₃.header

/-- A removal from the leaf that was found. -/
theorem wp_removeLeaf_keysBelow {first last : ℕ}
    (hpath : PathOk inodeRef s.bytes lblock path ns leaf) (h0 : 0 < leaf.header.entriesCount)
    (hlower : leaf.extent.firstBlock ≤ last)
    (hreach : first < leaf.extent.firstBlock + extentGetActualLen leaf.extent)
    (hupper : last < leaf.extent.firstBlock + extentGetActualLen leaf.extent)
    (hg : leaf.extent.firstBlock ≤ g) (hk : KeysBelow inodeRef s.bytes g) :
    wp (removeLeaf inodeRef path first last) (fun _ s' => KeysBelow inodeRef s'.bytes g)
      (fun _ _ => True) s := by
  obtain ⟨l, r, hs, hpos, hsel⟩ := hpath.leafOk.around h0
  have hlev := hpath.levels
  have hst := hpath.leafOk.toStanding
  have hheld : Held inodeRef s leaf := ⟨hpath.leafOk.header, hpath.leafOk.sane.headerOk⟩
  have hbetween := hsel.between hs
  rw [if_pos hst.depth] at hbetween
  have hlast := lastBlock_eq hbetween.1
  have hnext : ∀ y ∈ r.head?, last < y.firstBlock := fun y hy =>
    Nat.lt_of_lt_of_le hupper (hbetween.2.2 y hy)
  unfold removeLeaf
  rw [wp_bind, wp_node]
  refine ⟨leaf, by rw [hpath.nodes, hpath.depth]; simp, ?_⟩
  refine wp_rewriteLeaf_relisting hheld hs hpos hlower (by rw [hlast]; omega) hnext fun s₁ h₁ => ?_
  generalize (trimExtent leaf.extent first last).2.toList = m at h₁ ⊢
  have hdepth₁ : (s₁.bytes.header leaf.place).depth = 0 := by
    rw [h₁.header]
    exact hst.depth
  have hedit : NodeEdit inodeRef g s.bytes s₁.bytes 0 leaf.pblockOfNode l leaf.extent m r := by
    refine ⟨hst, hdepth₁, hs, h₁.slots, hsel, Or.inl ⟨Or.inl rfl, ?_⟩⟩
    rintro rfl hb hok
    rw [Place.of_ne_zero hb] at hs
    refine ⟨hok, ?_⟩
    show (s.bytes.extent (.block leaf.pblockOfNode) 0).firstBlock ≤ g
    rw [Disk.extent_zero hs]
    exact hg
  have hk₁ := (Shrunk.of_edit hedit fun q hq => Or.inl (h₁.others q hq)).keysBelow hk
  have hslots₁ := h₁.slots
  dsimp only
  rw [hpath.depth, wp_bind, wp_whenever]
  cases hkept : l ++ m ++ r with
  | cons z zs =>
      have done (s₂ : St) (h₂ : KeysBelow inodeRef s₂.bytes g) :
          wp (if (z :: zs).length = 0 then
            if leaf.pblockOfNode = 0 then pure () else removeIndex inodeRef path (ns.length - 1)
            else pure ())
            (fun _ s' => KeysBelow inodeRef s'.bytes g) (fun _ _ => True) s₂ := by
        rw [if_neg (show ¬ (z :: zs).length = 0 from Nat.succ_ne_zero _)]
        exact h₂
      rw [hkept] at hslots₁
      refine ⟨fun _ => ?_, fun _ => done s₁ hk₁⟩
      refine wp_mono (wp_correctIndexes_keysBelow (firstKey_lt hslots₁) ns s₁ hpath.nodes hlev
        (fun n hn => ?_) hk₁ fun hb _ _ => ?_) (fun _ s₂ h₂ => done s₂ h₂) fun _ _ h => h
      · refine h₁.others _ fun heq => ?_
        have hlt := hlev.depth_lt n hn
        rw [heq] at hlt
        exact absurd hst.depth (Nat.ne_of_gt hlt)
      · rw [ExtentPathNode.place, Place.of_ne_zero hb] at hslots₁
        show z.firstBlock ≤ (s₁.bytes.extent (.block leaf.pblockOfNode) 0).firstBlock
        rw [Disk.extent_zero hslots₁]
  | nil =>
      obtain ⟨hlm, rfl⟩ := List.append_eq_nil_iff.mp hkept
      obtain ⟨rfl, rfl⟩ := List.append_eq_nil_iff.mp hlm
      refine ⟨fun h => absurd h.2 (Nat.lt_irrefl 0), fun _ => ?_⟩
      rw [if_pos List.length_nil, wp_ite]
      refine ⟨fun _ => hk₁, fun hb => ?_⟩
      refine wp_removeIndex_keysBelow hk ns s₁ hpath.nodes hb hlev (fun q => ?_) ⟨?_, ?_⟩
      · by_cases hq : q = leaf.place
        · subst hq
          refine Or.inr ⟨?_, ⟨_, 0, rfl, Nat.zero_lt_one, hst⟩, hdepth₁.trans hst.depth.symm⟩
          rw [← Disk.length_slots, hslots₁]
          rfl
        · exact Or.inl (h₁.others q hq)
      · exact hsel.leftmostOk_single hst hs hb
      · rw [Place.of_ne_zero hb] at hs
        show (s.bytes.extent (.block leaf.pblockOfNode) 0).firstBlock ≤ g
        rw [Disk.extent_zero hs]
        exact hg

/-- The extent that a round skipping a hole goes to. -/
theorem KeysBelow.lt_nextExtent {x : Ext4Extent} (hk : KeysBelow inodeRef D f)
    (hpath : PathOk inodeRef D f path ns leaf) (h0 : 0 < leaf.header.entriesCount)
    (hx : D.nextExtent ns leaf = some x)
    (hedge : leaf.position + 1 < leaf.header.entriesCount ∨ EdgeAfterOk inodeRef D ns) :
    f < x.firstBlock := by
  unfold Disk.nextExtent at hx
  by_cases hpos : leaf.position + 1 < leaf.header.entriesCount
  · rw [if_pos hpos] at hx
    obtain rfl := Option.some.inj hx
    rcases (hpath.leafOk.chosen h0).next with h | h
    · omega
    · exact h
  · -- the entry behind the turning point has a greater key, which its first extent is not below
    rw [if_neg hpos] at hx
    obtain ⟨n, hturn, rfl⟩ := Option.map_eq_some_iff.mp hx
    have hok := hedge.resolve_left hpos n hturn
    have hmem : n ∈ ns := List.mem_reverse.mp (List.mem_of_find?_eq_some hturn)
    have hbehind : n.position + 1 < n.header.entriesCount := by
      have := List.find?_some hturn
      simpa using this
    obtain ⟨d, b, hl, hlinked⟩ := hpath.levels.mem_linked .root n hmem
    have hplace : n.place = Place.of b := by rw [ExtentPathNode.place, hl.pblockOfNode]
    have hd : n.header.depth - 1 = d := by rw [hl.header, hl.depth, Nat.add_sub_cancel]
    rw [hd, hplace] at hok ⊢
    have hlt : f < D.key (Place.of b) (n.position + 1) := by
      rcases hl.chosen.next with h | h
      · omega
      · exact h
    rw [hl.header] at hbehind
    exact Nat.lt_of_lt_of_le hlt (hk d b _ hlinked hl.toStanding (Nat.succ_pos _) hbehind hlt hok)

/-- One round: it stops, or it moves forward and leaves no key above its first extent. -/
theorem wp_removeSpaceStep_progress (inodeRef : InodeRef) (s : St) (first last : ℕ)
    (hle : first ≤ last) (hk : KeysBelow inodeRef s.bytes first) :
    wp (removeSpaceStep inodeRef first last)
      (fun r s' => ∀ next, r = some next → first < next ∧ KeysBelow inodeRef s'.bytes next)
      (fun _ _ => True) s := by
  unfold removeSpaceStep
  rw [wp_bind]
  refine wp_mono wp_findExtent ?_ fun _ _ _ => trivial
  rintro path s₁ ⟨ns, leaf, hfound⟩
  have hpath := hfound.pathOk
  have hget : path.path[path.depth]? = some leaf := by rw [hpath.nodes, hpath.depth]; simp
  rw [wp_bind, wp_node]
  refine ⟨leaf, hget, (wp_ite _ _ _).mpr ⟨fun _ => by simp, fun hc => ?_⟩⟩
  have h0 : 0 < leaf.header.entriesCount := by omega
  obtain ⟨hlen, -, -, -⟩ := extentInRange_iff.mp (hpath.extentInRange h0)
  dsimp only
  rw [lastBlock_eq (hpath.extentInRange h0)]
  refine (wp_ite _ _ _).mpr ⟨fun _ => ?_, fun _ =>
    (wp_ite _ _ _).mpr ⟨fun hgap => ?_, fun hge => ?_⟩⟩
  · rw [wp_bind]
    exact wp_mono (safe_removeMiddleOfExtent first last) (fun _ _ _ => by simp) fun _ _ h => h
  · rw [wp_bind, wp_attempt]
    refine wp_mono (wp_findNextExtent hpath hfound.reads) ?_ ?_
    · rintro x s₂ ⟨hx, hreads, hedge⟩ next hnext
      obtain rfl : x.firstBlock = next := Option.some.inj hnext
      have hlt := hk.lt_nextExtent hpath h0 hx hedge
      rw [hreads.bytes]
      exact ⟨hlt, hk.mono (Nat.le_of_lt hlt)⟩
    · rintro e s₂ -
      cases e <;> simp
  · rw [wp_bind]
    rw [← hfound.reads.bytes] at hpath hk
    generalize hto : (if leaf.extent.firstBlock + extentGetActualLen leaf.extent - 1 < last then
      leaf.extent.firstBlock + extentGetActualLen leaf.extent - 1 else last) = removeTo
    have hbounds : leaf.extent.firstBlock ≤ removeTo ∧ first ≤ removeTo ∧
        removeTo < leaf.extent.firstBlock + extentGetActualLen leaf.extent := by
      rw [← hto]
      split <;> omega
    refine wp_mono (wp_removeLeaf_keysBelow (g := removeTo + 1) hpath h0 hbounds.1 (by omega)
      hbounds.2.2 (by omega) (hk.mono (by omega))) ?_ fun _ _ h => h
    intro _ s₂ hk₂
    refine (wp_ite _ _ _).mpr ⟨fun _ => by simp, fun _ next hnext => ?_⟩
    obtain rfl := Option.some.inj hnext
    exact ⟨by omega, hk₂⟩

/-- Every round starts without such a key. -/
theorem Reached.keysBelow {last first : ℕ} (hk : KeysBelow inodeRef s.bytes first)
    (h : Reached inodeRef last first s f s₁) : KeysBelow inodeRef s₁.bytes f := by
  induction h with
  | start => exact hk
  | round _ hf hstep ih =>
      exact (wp_ok (wp_removeSpaceStep_progress inodeRef _ _ last hf ih) hstep _ rfl).2

/-- The loop ends: `from` cannot rise above `to` more often than there are block numbers in
between. -/
theorem safe_removeSpaceLoop {last : ℕ} : ∀ (fuel f : ℕ) (s : St), KeysBelow inodeRef s.bytes f →
    last + 1 - f < fuel → Safe (removeSpaceLoop inodeRef last fuel f) s := by
  intro fuel
  induction fuel with
  | zero => intro f s _ hlt; omega
  | succ fuel ih =>
      intro f s hk hlt
      refine .ite (fun hf => ?_) fun _ => trivial
      refine .bind_wp (wp_mono (wp_removeSpaceStep_progress inodeRef s f last hf hk)
        (fun _ _ h => ⟨trivial, h⟩) fun _ _ h => h) fun r s₁ h => ?_
      cases r with
      | none => trivial
      | some next =>
          obtain ⟨hnext, hk₁⟩ := h next rfl
          exact ih next s₁ hk₁ (by omega)

end Lemmas

/-- Two leaves, with a hole in between. -/
def holeDisk : Disk
  | .root => indexBytes 4 1 [⟨0, 100, 0, 0⟩, ⟨10, 101, 0, 0⟩]
  | .block 100 => leafBytes 84 [⟨0, 1, 0, 200⟩]
  | .block 101 => leafBytes 84 [⟨10, 1, 0, 201⟩]
  | .block _ => fun _ => 0

end EspLwext4
