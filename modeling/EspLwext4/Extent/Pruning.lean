import EspLwext4.Extent.Buffers
import EspLwext4.Extent.Cutting

/-!
# Emptied nodes

`remove_index` takes the entry of an emptied node out of its parent and gives the node back.
A parent that this leaves empty goes the same way, and an emptied root becomes an empty leaf:
on a tree that is `Ctx.prune`.
-/

namespace EspLwext4

open Prog Bytes Ranged

variable (inodeRef : InodeRef) (g : Grade)

/-- The entry of `b` was taken out of the node `f`, which has the entries `es` then, and `b`
was given back. -/
structure Unlinked (s s' : St) {d : ℕ} (f : Frame Ext4Extent d) (b : ℕ) (es : List Ext4Extent) :
    Prop where
  rewrote : ∃ s₁, s' = s₁.log (.io (.ballocFreeBlocks b 1) none) ∧ Rewrote inodeRef s s₁ f.addr
    ((s.bytes.header (Place.of f.addr)).withCount es.length) es
  children : es.map (·.child) = f.siblings.map fun c => (c.1, c.2.addr)
  fits : ∀ x ∈ es, x.Fits

/-- A block that a removal needed above the leaf it rewrote could not be read. -/
def Stranded (s s' : St) (err : Errno) : Prop :=
  ReadFailed inodeRef s s' .writeIndexAt err ∨ ReadFailed inodeRef s s' .removeIndex err

section Lemmas

variable {inodeRef g} {s s₁ s₂ s' : St} {d e b : ℕ} {es : List Ext4Extent} {err : Errno}
variable {node : ExtentPathNode} {path : ExtentSearchPath}

theorem Stranded.earlier (h : Stranded inodeRef s₁ s' err) (h' : s.trace <:+ s₁.trace) :
    Stranded inodeRef s s' err :=
  h.imp (fun h => h.earlier h') fun h => h.earlier h'

/-- A path node copied from a node of the tree. -/
theorem RepAt.held {u : SepTree Ext4Extent d} (h : RepAt inodeRef g s.bytes u)
    (hc : CopyOf s.bytes node u.addr) (hbytes : s₁.bytes = s.bytes) : Held inodeRef s₁ node := by
  have hplace : node.place = Place.of u.addr := by
    unfold ExtentPathNode.place
    rw [hc.pblockOfNode]
  constructor
  · rw [hc.header, hplace, hbytes]
  · rw [hc.header, hplace]
    exact h.standing.headerOk

/-- Finishing an edit of a node that was got in `s₁`. -/
theorem Held.wp_finish_rewrote (h : Held inodeRef s₁ node) (hw : WritesSucceed inodeRef)
    (hb : node.pblockOfNode = b) (hbytes : s₁.bytes = s.bytes) (hquiet : Quiet s s₂)
    (hlen : es.length ≤ node.header.maxEntriesCount) (hrel : Relists s₁ s₂ node.place es) :
    wp (finishNode inodeRef node)
      (fun _ s' => Rewrote inodeRef s s' b ((s.bytes.header (Place.of b)).withCount es.length) es)
      (fun _ _ => False) s₂ := by
  have hplace : node.place = Place.of b := by
    unfold ExtentPathNode.place
    rw [hb]
  have hslots := hrel.slots_eq
  obtain ⟨d, hs, hlist⟩ := hrel
  have hheader : headerLoad d = (s.bytes.header (Place.of b)).withCount es.length := by
    rw [hlist.header, hbytes, hplace]
    rfl
  have hok : HeaderOk inodeRef (Place.of b) (headerLoad d) := by
    rw [hlist.header, ← hplace]
    have := h.ok.withCount hlen
    rwa [h.copy] at this
  unfold Disk.slots at hslots
  rw [hs, Disk.set_self] at hslots
  refine wp_finishNode (fun hn => absurd hw hn) hb (d := d) (by rw [hs, hbytes, hplace]) hquiet hok
    fun s' hr => ?_
  rwa [hheader, hslots] at hr

/-- Taking an entry out of an index node and giving the child back. -/
theorem wp_unlink {Q : Unit → St → Prop} {E : Errno → St → Prop} {K : ℕ → M Unit}
    {f : Frame Ext4Extent d} {u : SepTree Ext4Extent d} (hw : WritesSucceed inodeRef)
    (hf : RepAt inodeRef g s.bytes (f.fill u)) (hat : NodeAt s.bytes node f)
    (hK : ∀ es s', Unlinked inodeRef s s' f u.addr es → wp (K (firstKey es)) Q E s')
    (hE : ∀ err s', ReadFailed inodeRef s s' .removeIndex err → E err s') :
    wp (do
      getForWrite inodeRef .removeIndex node
      let firstAfter ← dropIndex inodeRef node
      finishNode inodeRef node
      removeIndexBlock inodeRef node.index
      K firstAfter) Q E s := by
  obtain ⟨l, x, r, hslots, hl, hx, hright, hidx⟩ := hat.slots hf.entries
  have hcopy : CopyOf s.bytes node (f.fill u).addr := hat.copyOf
  have hplace : node.place = Place.of f.addr := by
    unfold ExtentPathNode.place
    rw [hat.pblockOfNode]
  have hpos : node.position = l.length := by
    have : l.length = f.left.length := by simpa using congrArg List.length hl
    rw [hat.position, this]
  have hchild : indexGetPblock node.index = u.addr := by
    have hfits : node.index.Fits := hat.index ▸ indexLoad_fits _ _
    rw [hidx, Ext4ExtentIndex.child_asExtent hfits] at hx
    exact congrArg Prod.snd hx
  rw [wp_bind]
  refine wp_getForWrite .removeIndex (fun s₁ h₁ => ?_) fun err s₁ _ h₂ => hE err s₁ h₂
  have hheld := hf.held hcopy h₁.bytes
  have hs₁ : s₁.bytes.slots node.place = l ++ x :: r := by rw [h₁.bytes, hplace, hslots]
  have hlen : (l ++ r).length ≤ node.header.maxEntriesCount := by
    have hcount := hheld.count hs₁
    have hle := hheld.ok.count
    simp only [List.length_append, List.length_cons] at hcount ⊢
    omega
  rw [wp_bind]
  refine wp_mono (wp_dropIndex_relists hheld hs₁ hpos) ?_ fun _ _ h => h.elim
  rintro _ s₂ ⟨hrel, htrace, rfl⟩
  have hquiet : Quiet s s₂ := by
    obtain ⟨evs, h, hq⟩ := h₁.quiet
    exact ⟨evs, htrace.trans h, hq⟩
  rw [wp_bind]
  refine wp_mono (hheld.wp_finish_rewrote hw hat.pblockOfNode h₁.bytes hquiet hlen hrel) ?_
    fun _ _ h => h.elim
  intro _ s₃ hr
  rw [wp_bind, removeIndexBlock, hchild]
  refine wp_ballocFreeBlocks_ok (fun hn => absurd hw hn) (hK (l ++ r) _ ⟨⟨s₃, rfl, hr⟩, ?_, fun y hy => ?_⟩)
  · rw [Frame.siblings, List.map_append, List.map_append, hl, hright]
  · refine s.bytes.slots_fits (p := Place.of f.addr) y ?_
    rw [hslots]
    rcases List.mem_append.mp hy with hy | hy <;> simp [hy]

/-! ## The node without the entry -/

variable {f : Frame Ext4Extent d} {c : Ctx Ext4Extent (d + 1) e} {u : SepTree Ext4Extent d}

/-- The root is the only node with the address 0. -/
theorem Ctx.addr_eq_zero_iff (hnodup : (Ctx.cons f c).addrs.Nodup) (hroot : c.rootAddr f.addr = 0) :
    f.addr = 0 ↔ c.length = 0 := by
  cases c with
  | nil => exact ⟨fun _ => rfl, fun _ => hroot⟩
  | cons f' c =>
      refine ⟨fun h0 => ?_, fun h => by cases h⟩
      have hmem : f.addr ∈ (Ctx.cons f' c).addrs := by
        rw [h0, ← hroot]
        rcases c.rootAddr_mem f'.addr with h | h
        · show c.rootAddr f'.addr ∈ _
          rw [h]
          exact Ctx.addr_mem_cons
        · exact Ctx.outer_mem h
      exact absurd hmem (Ctx.nodup_cons hnodup).2.1

section Unlinked

variable (h : Unlinked inodeRef s s' f b es)

include h

theorem Unlinked.settled (base : Multiset ℕ) : Settled (b ::ₘ base) s s' base := by
  obtain ⟨s₁, rfl, hr⟩ := h.rewrote
  have := (Settled.of_quiet (blockRun b 1 + base) hr.quiet).trans (.give base s₁)
  rwa [blockRun_one, Multiset.singleton_add] at this

theorem Unlinked.length : es.length = f.siblings.length := by
  have := congrArg List.length h.children
  rwa [List.length_map, List.length_map] at this

theorem Unlinked.bytes_eq {a : ℕ} (ha : a ≠ f.addr) : s'.bytes (Place.of a) = s.bytes (Place.of a) := by
  obtain ⟨s₁, rfl, hr⟩ := h.rewrote
  exact hr.bytes_eq ha

/-- The nodes above stand. -/
theorem Unlinked.around (hc : c.Around (RepAt inodeRef g s.bytes) (f.fill u)) (hf : f.addr ∉ c.addrs)
    {u' : SepTree Ext4Extent (d + 1)} (haddr : u'.addr = f.addr) :
    c.Around (RepAt inodeRef g s'.bytes) u' := by
  obtain ⟨s₁, rfl, hr⟩ := h.rewrote
  exact hr.around hc hf haddr

/-- So does the node itself, with the children that are left. -/
theorem Unlinked.rep (hc : (Ctx.cons f c).Around (RepAt inodeRef g s.bytes) u)
    (hnodup : (Ctx.cons f c).addrs.Nodup) :
    Rep inodeRef g s'.bytes (.node f.addr f.siblings) := by
  obtain ⟨hf, hsib, -⟩ := hc
  have hlen := h.length
  obtain ⟨s₁, rfl, hr⟩ := h.rewrote
  have hcount : es.length ≤ (s.bytes.header (Place.of f.addr)).maxEntriesCount := by
    have hle := hf.standing.headerOk.count
    have hkeys := Shows.count hf.entries
    rw [Frame.addr_fill] at hle hkeys
    rw [hkeys] at hle
    simp only [Frame.fill, SepTree.keys_node, List.length_map, List.length_append,
      List.length_cons] at hle
    rw [hlen, Frame.siblings, List.length_append]
    omega
  have hself : RepAt inodeRef g s₁.bytes (.node f.addr f.siblings) :=
    Rewrote.repAt (u := .node f.addr f.siblings) hr (hf.standing.headerOk.withCount hcount)
      hf.standing.depth hf.declares h.children
  have hbelow (k) (hk : k ∈ f.siblings) : Rep inodeRef g s₁.bytes k.2 :=
    hr.rep (hsib k hk) ((Ctx.nodup_cons hnodup).1 k hk)
  exact SepTree.all_node.mpr ⟨hself, hbelow⟩

/-- The first key left. -/
theorem Unlinked.firstKey_eq {k : ℕ × SepTree Ext4Extent d} {ks : List (ℕ × SepTree Ext4Extent d)}
    (hs : f.siblings = k :: ks) : firstKey es = k.1 ∧ firstKey es < 4294967296 := by
  have hchildren := h.children
  rw [hs] at hchildren
  obtain ⟨x, r, rfl, hx, -⟩ := List.map_eq_cons_iff.mp hchildren
  exact ⟨congrArg Prod.fst hx, (h.fits x (by simp)).firstBlock⟩

end Unlinked

theorem rep_emptyRoot {D : Disk} (hh : HeaderOk inodeRef .root (D.header .root))
    (hd : (D.header .root).depth = 0) (h0 : (D.header .root).entriesCount = 0) :
    Rep inodeRef g D (.leaf 0 []) := by
  show RepAt inodeRef g D (.leaf 0 [])
  refine ⟨⟨⟨hh, hd, fun h => absurd rfl h⟩, Grade.declares_zero _⟩, ?_⟩
  show D.slots .root = []
  exact List.eq_nil_of_length_eq_zero (by rw [Disk.length_slots, h0])

/-- An empty index root becomes an empty leaf. -/
theorem wp_collapseRoot {Q : Unit → St → Prop} {E : Errno → St → Prop}
    (hh : HeaderOk inodeRef .root (s.bytes.header .root))
    (h0 : (s.bytes.header .root).entriesCount = 0)
    (hQ : ∀ s', s'.trace = s.trace → Rep inodeRef g s'.bytes (.leaf 0 []) → Q () s') :
    wp (collapseRoot inodeRef) Q E s := by
  refine wp_collapseRoot_header fun s' htrace hload => hQ s' htrace ?_
  refine rep_emptyRoot ?_ ?_ ?_
  · have hok : HeaderOk inodeRef .root { s.bytes.header .root with depth := 0 } :=
      ⟨hh.magic, Nat.zero_le _, hh.pos, hh.count, hh.max⟩
    exact (congrArg (HeaderOk inodeRef .root) hload).mpr hok
  · exact congrArg Ext4ExtentHeader.depth hload
  · exact (congrArg Ext4ExtentHeader.entriesCount hload).trans h0

/-- One level of `remove_index`: the node keeps other children, or it is the root, or its own
entry goes next. -/
theorem wp_removeIndexStep {Q : Unit → St → Prop} {E : Errno → St → Prop} {removeParent : M Unit}
    (hw : WritesSucceed inodeRef) (hc : (Ctx.cons f c).Around (RepAt inodeRef g s.bytes) u)
    (hnodup : (Ctx.cons f c).addrs.Nodup) (hroot : c.rootAddr f.addr = 0)
    (halong : Follows s.bytes path.path (Ctx.cons f c))
    (hQ : ∀ s', Rep inodeRef g s'.bytes ((Ctx.cons f c).prune u.addr).2 →
      (∀ base, Settled ((Ctx.cons f c).pruned u.addr + base) s s' base) → Q () s')
    (hE : ∀ err s', Stranded inodeRef s s' err → E err s')
    (hparent : f.siblings = [] → c.length ≠ 0 → ∀ s',
      c.Around (RepAt inodeRef g s'.bytes) (f.fill u) → Follows s'.bytes path.path c →
      (∀ base, Settled (u.addr ::ₘ base) s s' base) → wp removeParent Q E s') :
    wp (removeIndexStep inodeRef path c.length removeParent) Q E s := by
  obtain ⟨⟨node, hnode, hat⟩, halong⟩ := halong
  have hzero := Ctx.addr_eq_zero_iff hnodup hroot
  have hfc : f.addr ∉ c.addrs := (Ctx.nodup_cons hnodup).2.1
  unfold removeIndexStep
  rw [wp_bind, wp_node]
  refine ⟨node, hnode, ?_⟩
  refine wp_unlink hw hc.1 hat (fun es s₁ hun => ?_) fun err s₁ h => hE err s₁ (Or.inr h)
  have hcount : u16 (sub32 node.header.entriesCount 1) = f.siblings.length := by
    have hkeys := Shows.count hc.1.entries
    have hmax := hc.1.standing.headerOk.max_lt
    have hle := hc.1.standing.headerOk.count
    rw [Frame.addr_fill] at hkeys hmax hle
    rw [← hat.header] at hkeys hmax hle
    simp only [Frame.fill, SepTree.keys_node, List.length_map, List.length_append,
      List.length_cons] at hkeys
    rw [sub32_of_le (by omega) (by omega), u16_of_lt (by omega), hkeys, Frame.siblings,
      List.length_append]
    omega
  dsimp only
  rw [hcount, hat.position, hat.pblockOfNode, wp_bind, wp_whenever]
  cases hs : f.siblings with
  | cons k ks =>
      obtain ⟨hkey, hlt⟩ := hun.firstKey_eq hs
      have hself := hun.rep hc hnodup
      have haround : c.Around (RepAt inodeRef g s₁.bytes) (.node f.addr f.siblings) :=
        hun.around hc.2.2 hfc rfl
      have hne : (k :: ks).length ≠ 0 := Nat.succ_ne_zero _
      have hpruned := Ctx.pruned_of_siblings (b := u.addr) (c := c) hs
      -- the tree once the keys above are right
      have done (s₂ : St) (c' : Ctx Ext4Extent (d + 1) e)
          (hc' : c' = c.rekeyIf f.left.isEmpty k.1) (ht : Touches c.addrs s₁ s₂)
          (h₂ : c'.Around (RepAt inodeRef g s₂.bytes) (.node f.addr f.siblings)) :
          wp (if (k :: ks).length = 0 then
            if f.addr = 0 then collapseRoot inodeRef else removeParent else pure ()) Q E s₂ := by
        rw [if_neg hne]
        refine hQ s₂ ?_ fun base => ?_
        · rw [Ctx.prune_of_siblings hs, ← hc']
          refine (Ctx.all_plug _ _).mpr ⟨Rep.frame hself fun a ha => ht.others a ?_, h₂⟩
          exact Ctx.siblings_apart hnodup ha
        · rw [hpruned, Multiset.singleton_add]
          exact (hun.settled base).trans (.of_quiet base ht.quiet)
      constructor
      · rintro ⟨h0, -⟩
        have hleft : f.left.isEmpty = true := by rw [List.eq_nil_of_length_eq_zero h0]; rfl
        rw [hleft] at done
        refine wp_mono (wp_correctIndexes hlt c _ s₁ haround (Ctx.nodup_cons hnodup).2.2 ?_) ?_ ?_
        · exact halong.congr fun a ha => hun.bytes_eq fun h => hfc (h ▸ ha)
        · rintro _ s₂ ⟨ht, h₂⟩
          exact done s₂ _ rfl ht (hkey ▸ h₂)
        · intro err s₂ h
          obtain ⟨-, hfail, -⟩ := h hw
          exact hE err s₂ (Or.inl (hfail.earlier (hun.settled 0).suffix))
      · intro hno
        have hleft : f.left.isEmpty = false := by
          cases hl : f.left with
          | nil => exact absurd ⟨by rw [hl]; rfl, Nat.pos_of_ne_zero hne⟩ hno
          | cons x xs => rfl
        rw [hleft] at done
        exact done s₁ c rfl (.refl _ _) haround
  | nil =>
      have hes : es.length = 0 := by rw [hun.length, hs]; rfl
      refine ⟨fun h => absurd h.2 (Nat.lt_irrefl 0), fun _ => ?_⟩
      rw [if_pos List.length_nil]
      by_cases h0 : f.addr = 0
      · rw [if_pos h0]
        obtain ⟨hprune, hpruned⟩ := Ctx.prune_of_length (b := f.addr) (hzero.mp h0)
        obtain ⟨s₂, hs₂, hr⟩ := hun.rewrote
        have hheader := hr.header
        rw [h0, hes] at hheader
        subst hs₂
        have hok := hc.1.standing.headerOk
        rw [Frame.addr_fill, h0] at hok
        refine wp_collapseRoot (g := g) ?_ ?_ fun s₃ htrace hrep => hQ s₃ ?_ fun base => ?_
        · exact hheader ▸ hok.withCount (Nat.zero_le _)
        · exact congrArg Ext4ExtentHeader.entriesCount hheader
        · rw [Ctx.prune_of_no_siblings hs, hprune, h0]
          exact hrep
        · rw [Ctx.pruned_of_no_siblings hs, hpruned, Multiset.cons_add, zero_add]
          exact (hun.settled base).trans (.of_quiet base ⟨[], htrace, by simp⟩)
      · rw [if_neg h0]
        refine hparent hs (mt hzero.mpr h0) _ (hun.around hc.2.2 hfc rfl) ?_ hun.settled
        exact halong.congr fun a ha => hun.bytes_eq fun h => hfc (h ▸ ha)

/-- `remove_index`, by induction on the context of the emptied node. -/
theorem wp_removeIndex (hw : WritesSucceed inodeRef) :
    ∀ {d : ℕ} (c : Ctx Ext4Extent d e) (u : SepTree Ext4Extent d) (s : St) (level : ℕ),
    c.length = level + 1 → c.Around (RepAt inodeRef g s.bytes) u → c.addrs.Nodup →
    c.rootAddr u.addr = 0 → Follows s.bytes path.path c →
    wp (removeIndex inodeRef path level)
      (fun _ s' => Rep inodeRef g s'.bytes (c.prune u.addr).2 ∧
        ∀ base, Settled (c.pruned u.addr + base) s s' base)
      (fun err s' => Stranded inodeRef s s' err) s := by
  intro d c
  induction c with
  | nil => intro u s level h; cases h
  | cons f c ih =>
      intro u s level hlevel hc hnodup hroot halong
      obtain rfl : c.length = level := Nat.succ.inj hlevel
      have hcnodup := (Ctx.nodup_cons hnodup).2.2
      have step {removeParent : M Unit} (hparent : f.siblings = [] → c.length ≠ 0 → ∀ s₁,
          c.Around (RepAt inodeRef g s₁.bytes) (f.fill u) → Follows s₁.bytes path.path c →
          wp removeParent (fun _ s' => Rep inodeRef g s'.bytes (c.prune f.addr).2 ∧
              ∀ base, Settled (c.pruned f.addr + base) s₁ s' base)
            (fun err s' => Stranded inodeRef s₁ s' err) s₁) :
          wp (removeIndexStep inodeRef path c.length removeParent)
            (fun _ s' => Rep inodeRef g s'.bytes ((Ctx.cons f c).prune u.addr).2 ∧
              ∀ base, Settled ((Ctx.cons f c).pruned u.addr + base) s s' base)
            (fun err s' => Stranded inodeRef s s' err) s := by
        refine wp_removeIndexStep hw hc hnodup hroot halong (fun s' h₁ h₂ => ⟨h₁, h₂⟩)
          (fun err s' h => h) fun hs hc0 s₁ h₁ h₂ hsettled => ?_
        refine wp_mono (hparent hs hc0 s₁ h₁ h₂) ?_ fun err s' h => h.earlier (hsettled 0).suffix
        rintro _ s' ⟨hrep, hgiven⟩
        rw [Ctx.prune_of_no_siblings hs, Ctx.pruned_of_no_siblings hs]
        refine ⟨hrep, fun base => ?_⟩
        rw [Multiset.cons_add]
        exact (hsettled _).trans (hgiven base)
      cases hlen : c.length with
      | zero =>
          rw [hlen] at step
          exact step fun _ h0 => absurd rfl h0
      | succ n =>
          rw [hlen] at step
          exact step fun _ _ s₁ h₁ h₂ => ih (f.fill u) s₁ n hlen h₁ hcnodup hroot h₂

end Lemmas

end EspLwext4
