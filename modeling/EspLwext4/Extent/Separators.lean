import EspLwext4.Extent.Edits

/-!
# Correcting separators

`correct_indexes` renames the keys of the left edge that a leaf is on. If a block
cannot be read on the way, the keys below it have been renamed and the others not;
the nodes still name the same children.
-/

namespace EspLwext4

open Prog Bytes Ranged

variable (inodeRef : InodeRef) (g : Grade)

/-- Between `s` and `s'` nothing was allocated or freed, and no other node than those of
`as` was written. -/
structure Touches (as : Multiset ℕ) (s s' : St) : Prop where
  quiet : Quiet s s'
  others : ∀ a, a ∉ as → s'.bytes (Place.of a) = s.bytes (Place.of a)

/-- `c'` is `c` with other keys. -/
structure SameNodes {d e : ℕ} (c c' : Ctx Ext4Extent d e) : Prop where
  itemsLeft : c'.itemsLeft = c.itemsLeft
  itemsRight : c'.itemsRight = c.itemsRight
  addrs : c'.addrs = c.addrs
  rootAddr : ∀ a, c'.rootAddr a = c.rootAddr a

section Lemmas

variable {inodeRef g} {D D' : Disk} {s s' s₁ : St} {as as' : Multiset ℕ} {d e b v pos : ℕ}
variable {h : Ext4ExtentHeader} {es l r : List Ext4Extent} {x : Ext4Extent} {node : ExtentPathNode}
variable {path : ExtentSearchPath}

theorem Touches.refl (as : Multiset ℕ) (s : St) : Touches as s s := ⟨.refl s, fun _ _ => rfl⟩

theorem Touches.trans {s'' : St} (h : Touches as s s') (h' : Touches as s' s'') :
    Touches as s s'' :=
  ⟨h.quiet.trans h'.quiet, fun a ha => (h'.others a ha).trans (h.others a ha)⟩

theorem Touches.mono (h : Touches as s s') (hle : ∀ a ∈ as, a ∈ as') : Touches as' s s' :=
  ⟨h.quiet, fun a ha => h.others a fun ha' => ha (hle a ha')⟩

theorem Rewrote.touches (h : Rewrote inodeRef s s' b h es) (hb : b ∈ as) : Touches as s s' :=
  ⟨h.quiet, fun _ ha => h.bytes_eq fun hab => ha (hab ▸ hb)⟩

theorem Reads.touches (h : Reads s s') : Touches as s s' :=
  ⟨h.quiet, fun _ _ => by rw [h.bytes]⟩

theorem SameNodes.refl (c : Ctx Ext4Extent d e) : SameNodes c c := ⟨rfl, rfl, rfl, fun _ => rfl⟩

theorem SameNodes.rekey (c : Ctx Ext4Extent d e) (v : ℕ) : SameNodes c (c.rekey v) :=
  ⟨c.itemsLeft_rekey, c.itemsRight_rekey, c.addrs_rekey, c.rootAddr_rekey⟩

theorem SameNodes.cons {f : Frame Ext4Extent d} {c c' : Ctx Ext4Extent (d + 1) e}
    (h : SameNodes c c') (v : ℕ) : SameNodes (.cons f c) (.cons (f.withKey v) c') := by
  constructor
  · rw [Ctx.itemsLeft, Ctx.itemsLeft, h.itemsLeft, Frame.left_withKey]
  · rw [Ctx.itemsRight, Ctx.itemsRight, h.itemsRight, Frame.right_withKey]
  · rw [Ctx.addrs, Ctx.addrs, h.addrs, Frame.addr_withKey]
    rfl
  · exact fun a => h.rootAddr f.addr

theorem NodeAt.congr {f : Frame Ext4Extent d} (h : NodeAt D node f)
    (hD : D' (Place.of f.addr) = D (Place.of f.addr)) : NodeAt D' node f := by
  refine ⟨h.pblockOfNode, ?_, h.position, ?_⟩
  · unfold Disk.header
    rw [hD]
    exact h.header
  · unfold Disk.index
    rw [hD]
    exact h.index

theorem Follows.congr {ns : List ExtentPathNode} {c : Ctx Ext4Extent d e} (h : Follows D ns c)
    (hD : ∀ a ∈ c.addrs, D' (Place.of a) = D (Place.of a)) : Follows D' ns c := by
  induction c with
  | nil => trivial
  | cons f c ih =>
      obtain ⟨⟨node, hnode, hat⟩, hc⟩ := h
      rw [Ctx.addrs] at hD
      refine ⟨⟨node, hnode, hat.congr (hD _ (by simp))⟩, ih hc fun a ha => hD a ?_⟩
      exact Multiset.mem_add.mpr (Or.inr ha)

/-- The entries of a frame, split at the hole. -/
theorem NodeAt.slots {f : Frame Ext4Extent d} {u : SepTree Ext4Extent d} (hat : NodeAt D node f)
    (hs : Shows D (f.fill u)) : ∃ l x r, D.slots (Place.of f.addr) = l ++ x :: r ∧
      l.map (·.child) = f.left.map (fun c => (c.1, c.2.addr)) ∧ x.child = (f.key, u.addr) ∧
      r.map (·.child) = f.right.map (fun c => (c.1, c.2.addr)) ∧ x = node.index.asExtent := by
  have hmap : (D.slots (Place.of f.addr)).map (·.child) =
      (f.left ++ (f.key, u) :: f.right).map fun c => (c.1, c.2.addr) := hs
  rw [List.map_append, List.map_cons] at hmap
  obtain ⟨l, xr, hsplit, hl, hxr⟩ := List.map_eq_append_iff.mp hmap
  obtain ⟨x, r, rfl, hx, hr⟩ := List.map_eq_cons_iff.mp hxr
  refine ⟨l, x, r, hsplit, hl, hx, hr, ?_⟩
  have hlen : l.length = f.left.length := by simpa using congrArg List.length hl
  have hi : l.length < (D.slots (Place.of f.addr)).length := by rw [hsplit]; simp
  have hget := Disk.getElem_slots hi
  simp only [hsplit, List.getElem_append_right (Nat.le_refl _), Nat.sub_self,
    List.getElem_cons_zero] at hget
  rw [hget, hat.index, ← hlen]
  exact extentLoad_eq _ _

theorem wp_writeIndexAt {y : Ext4ExtentIndex}
    (hb : node.pblockOfNode = b) (hh : HeaderOk inodeRef (Place.of b) (s.bytes.header (Place.of b)))
    (hs : s.bytes.slots (Place.of b) = l ++ x :: r) (hpos : pos = l.length) (hy : y.Fits) :
    wp (writeIndexAt inodeRef node pos y)
      (fun _ s' => Rewrote inodeRef s s' b (s.bytes.header (Place.of b)) (l ++ y.asExtent :: r))
      (fun err s' => WritesSucceed inodeRef →
        Reads s s' ∧ ReadFailed inodeRef s s' .writeIndexAt err) s := by
  have hplace : node.place = Place.of b := by unfold ExtentPathNode.place; rw [hb]
  have hlt : pos + 1 ≤ (s.bytes.header (Place.of b)).entriesCount := by
    rw [← Disk.length_slots, hs, hpos, List.length_append, List.length_cons]
    omega
  unfold writeIndexAt
  rw [wp_bind]
  refine wp_getForWrite .writeIndexAt (fun s₁ h₁ => ?_) fun err s₁ h₁ h₂ _ => ⟨h₁, h₂⟩
  rw [wp_bind, hplace]
  have hs₁ : s₁.bytes.slots (Place.of b) = l ++ x :: r := by rw [h₁.bytes]; exact hs
  refine wp_mono (wp_storeIndex_stored hs₁ hpos hy (hh.fits.mono hlt)) (fun _ s₂ h₂ => ?_)
    fun _ _ h => h.elim
  rw [h₁.bytes] at h₂
  exact wp_mono (wp_finishNode_stored hb h₁.quiet h₁.bytes h₂ hh) (fun _ _ h => h)
    fun _ _ h hw => absurd hw h

/-- One frame with a new key. -/
theorem Rewrote.fill_withKey {f : Frame Ext4Extent d} {u : SepTree Ext4Extent d}
    {y : Ext4ExtentIndex}
    (hr : Rewrote inodeRef s s' f.addr (s.bytes.header (Place.of f.addr)) (l ++ y.asExtent :: r))
    (hf : RepAt inodeRef g s.bytes (f.fill u)) (hy : y.Fits) (hkey : y.firstBlock = v)
    (hchild : indexGetPblock y = u.addr)
    (hl : l.map (·.child) = f.left.map fun c => (c.1, c.2.addr))
    (hright : r.map (·.child) = f.right.map fun c => (c.1, c.2.addr)) :
    RepAt inodeRef g s'.bytes ((f.withKey v).fill u) := by
  refine Rewrote.repAt (u := (f.withKey v).fill u) hr hf.standing.headerOk hf.standing.depth
    hf.declares ?_
  show List.map _ _ = List.map _ (f.left ++ (v, u) :: f.right)
  rw [List.map_append, List.map_append, List.map_cons, List.map_cons, hl, hright,
    Ext4ExtentIndex.child_asExtent hy, hkey, hchild]

/-- The loop of `correct_indexes`, by induction on the context: the innermost key first,
then, from a first position on, the key above. -/
theorem wp_correctIndexes (hv : v < 4294967296) :
    ∀ {d : ℕ} (c : Ctx Ext4Extent d e) (u : SepTree Ext4Extent d) (s : St),
    c.Around (RepAt inodeRef g s.bytes) u → c.addrs.Nodup → Follows s.bytes path.path c →
    wp (correctIndexes inodeRef path v c.length)
      (fun _ s' => Touches c.addrs s s' ∧ (c.rekey v).Around (RepAt inodeRef g s'.bytes) u)
      (fun err s' => WritesSucceed inodeRef → Touches c.addrs s s' ∧
        ReadFailed inodeRef s s' .writeIndexAt err ∧ ∃ c', SameNodes c c' ∧ c'.Around (RepAt inodeRef g s'.bytes) u) s := by
  intro d c
  induction c with
  | nil => exact fun u s _ _ _ => ⟨.refl _ s, trivial⟩
  | cons f c ih =>
      rintro u s ⟨hf, hsib, hc⟩ hnodup ⟨⟨node, hnode, hat⟩, halong⟩
      rw [Ctx.addrs, Multiset.cons_add, Multiset.nodup_cons, Multiset.nodup_add, Multiset.mem_add,
        not_or] at hnodup
      obtain ⟨⟨hfsib, hfc⟩, -, hcnodup, hdisj⟩ := hnodup
      obtain ⟨l, x, r, hslots, hl, hx, hright, rfl⟩ := hat.slots hf.entries
      have hidx : node.index.Fits := hat.index ▸ indexLoad_fits _ _
      have hy : ({ node.index with firstBlock := v } : Ext4ExtentIndex).Fits :=
        ⟨hv, hidx.leafLo, hidx.leafHi, hidx.padding⟩
      have hchild : indexGetPblock node.index = u.addr := by
        have := congrArg Prod.snd hx
        rwa [Ext4ExtentIndex.child_asExtent hidx] at this
      have hpos : node.position = l.length := by
        have : l.length = f.left.length := by simpa using congrArg List.length hl
        rw [hat.position, this]
      unfold Ctx.length correctIndexes
      rw [wp_bind, wp_node]
      refine ⟨node, hnode, ?_⟩
      rw [wp_bind]
      refine wp_mono (wp_writeIndexAt hat.pblockOfNode hf.standing.headerOk hslots hpos hy) ?_ ?_
      · intro _ s₁ hr
        have hfill : RepAt inodeRef g s₁.bytes ((f.withKey v).fill u) :=
          hr.fill_withKey hf hy rfl hchild hl hright
        have hmem : f.addr ∈ (Ctx.cons f c).addrs := by rw [Ctx.addrs]; simp
        have hsib₁ : ∀ k ∈ f.siblings, k.2.All (RepAt inodeRef g s₁.bytes) := fun k hk =>
          Rewrote.rep hr (hsib k hk) fun hin => hfsib (SepTree.mem_sum_addrs.mpr ⟨k, hk, hin⟩)
        have hc₁ : c.Around (RepAt inodeRef g s₁.bytes) ((f.withKey v).fill u) :=
          hr.around hc hfc rfl
        rw [wp_ite]
        constructor
        · -- the edge ends here
          intro hne
          have hleft : f.left.isEmpty = false := by
            rw [hat.position] at hne
            cases hl' : f.left with
            | nil => exact absurd (by rw [hl']; rfl) hne
            | cons => rfl
          refine ⟨hr.touches hmem, ?_⟩
          rw [Ctx.rekey, hleft]
          exact ⟨hfill, hsib₁, hc₁⟩
        · intro h0
          have hleft : f.left.isEmpty = true := by
            have h0' : f.left.length = 0 := by rw [← hat.position]; exact not_not.mp h0
            rw [List.eq_nil_of_length_eq_zero h0']
            rfl
          have halong₁ : Follows s₁.bytes path.path c :=
            halong.congr fun a ha => hr.bytes_eq (by rintro rfl; exact hfc ha)
          have hsub : ∀ a ∈ c.addrs, a ∈ (Ctx.cons f c).addrs := fun a ha => by
            rw [Ctx.addrs]
            exact Multiset.mem_add.mpr (Or.inr ha)
          -- what is done above leaves this frame and its other children alone
          have hkeep {s₂ : St} (ht : Touches c.addrs s₁ s₂) :
              RepAt inodeRef g s₂.bytes ((f.withKey v).fill u) ∧
                ∀ k ∈ f.siblings, k.2.All (RepAt inodeRef g s₂.bytes) := by
            refine ⟨hfill.congr (ht.others _ hfc), fun k hk => Rep.frame (hsib₁ k hk) fun a ha => ?_⟩
            refine ht.others a fun hac => Multiset.disjoint_left.mp hdisj ?_ hac
            exact SepTree.mem_sum_addrs.mpr ⟨k, hk, ha⟩
          refine wp_mono (ih ((f.withKey v).fill u) s₁ hc₁ hcnodup halong₁) ?_ ?_
          · rintro _ s₂ ⟨ht, haround⟩
            refine ⟨(hr.touches hmem).trans (ht.mono hsub), ?_⟩
            rw [Ctx.rekey, hleft]
            exact ⟨(hkeep ht).1, (hkeep ht).2, haround⟩
          · intro err s₂ h hw
            obtain ⟨ht, hfail, c', hsame, haround⟩ := h hw
            refine ⟨(hr.touches hmem).trans (ht.mono hsub), hfail.earlier hr.quiet.suffix,
              .cons (f.withKey v) c', hsame.cons v, (hkeep ht).1, (hkeep ht).2, haround⟩
      · intro err s₁ h hw
        obtain ⟨hreads, hfail⟩ := h hw
        refine ⟨hreads.touches, hfail, .cons f c, .refl _, ?_⟩
        rw [hreads.bytes]
        exact ⟨hf, hsib, hc⟩

end Lemmas

end EspLwext4
