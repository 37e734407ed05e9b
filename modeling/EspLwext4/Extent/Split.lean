import EspLwext4.Extent.Grow

/-!
# Splitting a node

`split_full_node` writes the upper half of a node to a new block, names that block in
the parent and then shortens the node. Until the last step the upper half is in the
tree twice; a failing read there leaves it so (`Torn`).
-/

namespace EspLwext4

open Prog Bytes Ranged

variable (inodeRef : InodeRef) (g : Grade)

/-- The path node was copied from the node at `b`. -/
structure CopyOf (D : Disk) (node : ExtentPathNode) (b : ℕ) : Prop where
  pblockOfNode : node.pblockOfNode = b
  header : node.header = D.header (Place.of b)

/-- `t'` is `t` after an interrupted split that took the blocks `own`: all its nodes stand
and pass the checks, some extents are in two of them, and every search ends as in `t`. -/
structure TornTo (base : Multiset ℕ) (s s' : St) {d : ℕ} (t : SepTree Ext4Extent d)
    (own : Multiset ℕ) (t' : SepTree Ext4Extent d) : Prop where
  rep : Rep inodeRef g s'.bytes t'
  spent : Spent base s s' own
  addr : t'.addr = t.addr
  items : ∀ e ∈ t'.items, e ∈ t.items
  addrs : ∀ a ∈ t'.addrs, a ∈ own + t.addrs
  fit : t'.All (FitAt inodeRef)
  seek : ∀ v, t'.seek v = t.seek v

/-- A split was interrupted. -/
def Torn (base : Multiset ℕ) (s s' : St) {d : ℕ} (t : SepTree Ext4Extent d) : Prop :=
  ∃ (own : Multiset ℕ) (t' : SepTree Ext4Extent d), TornTo inodeRef g base s s' t own t'

/-- What `split_full_node` asks of a node and its parent, and keys that stay apart. -/
structure SplitReady (node parent : ExtentPathNode) {d : ℕ} (f : Frame Ext4Extent d)
    (u : SepTree Ext4Extent d) : Prop where
  external : node.pblockOfNode ≠ 0
  two : 2 ≤ node.header.entriesCount
  full : node.header.entriesCount = node.header.maxEntriesCount
  room : parent.header.entriesCount < parent.header.maxEntriesCount
  apart : ∀ k ∈ u.keys, ∀ x ∈ f.right, k < x.1

/-- The upper half of `u`, from the key `k` on, is in the new block `b'`, which nothing
names yet. -/
structure UpperAt (base : Multiset ℕ) (s s₁ : St) {d : ℕ} (u : SepTree Ext4Extent d)
    (mid b' k : ℕ) : Prop where
  ne_zero : b' ≠ 0
  inside : b' < inodeRef.blocksCnt
  apart : b' ∉ base
  key : (u.keys.drop mid).head? = some k
  written : ∃ s₀ h, Spent base s s₀ {b'} ∧ s₀.bytes = s.bytes ∧
    HeaderOk inodeRef (Place.of b') h ∧ h.depth = d ∧ h.maxEntriesCount = capacity inodeRef ∧
    Rewrote inodeRef s₀ s₁ b' h ((s.bytes.slots (Place.of u.addr)).drop mid)

section Lemmas

variable {inodeRef g} {D : Disk} {s s₁ s' : St} {p : Place} {h : Ext4ExtentHeader}
variable {l r es : List Ext4Extent} {b d e k pos n mid level : ℕ} {node : ExtentPathNode}
variable {path : ExtentSearchPath} {E : Errno → St → Prop}

theorem CopyOf.congr (h : CopyOf D node b) {D' : Disk} (hD : D' (Place.of b) = D (Place.of b)) :
    CopyOf D' node b := by
  refine ⟨h.pblockOfNode, ?_⟩
  unfold Disk.header
  rw [hD]
  exact h.header

theorem Acceptable.congr {D' : Disk} (h : Acceptable inodeRef D d b)
    (hD : D' (Place.of b) = D (Place.of b)) : Acceptable inodeRef D' d b := by
  have hhead : D'.header (Place.of b) = D.header (Place.of b) := by
    unfold Disk.header
    rw [hD]
  refine ⟨h.toStanding.congr hD, ?_, ?_⟩
  · have := h.entries
    unfold EntriesOk Disk.extents Disk.indexes at this ⊢
    rwa [hhead, hD]
  · rw [hhead]
    exact h.nonempty

theorem NodeAt.copyOf {f : Frame Ext4Extent d} (h : NodeAt D node f) : CopyOf D node f.addr :=
  ⟨h.pblockOfNode, h.header⟩

/-! ## Checking a node again -/

/-- A node that has not changed since the search passes. -/
theorem wp_recheckNode {Q : Unit → St → Prop} (hc : CopyOf s.bytes node b) (hb : b ≠ 0)
    (ha : Acceptable inodeRef s.bytes d b) (hQ : ∀ s', Reads s s' → Q () s') :
    wp (recheckNode inodeRef node) Q E s := by
  obtain ⟨rfl, hhead⟩ := hc
  have hplace : Place.of node.pblockOfNode = .block node.pblockOfNode := Place.of_ne_zero hb
  have hok := ha.headerOk
  have hentries := ha.entries
  rw [hplace] at hok hentries hhead
  unfold recheckNode
  rw [wp_bind, wp_loadHeader, wp_bind]
  refine (wp_validateHeader (p := .block node.pblockOfNode)).mpr ⟨fun _ => ?_, fun hn => absurd hok hn⟩
  rw [wp_bind]
  refine wp_validateEntries_reads hok.fits (fun _ s' h' => ?_) fun hn => absurd hentries hn
  rw [wp_failIf, ← hhead]
  exact ⟨fun hne => by simp at hne, fun _ => hQ s' h'⟩

theorem wp_recheckIfBlock {Q : Unit → St → Prop} (hc : CopyOf s.bytes node b)
    (ha : Acceptable inodeRef s.bytes d b) (hQ : ∀ s', Reads s s' → Q () s') :
    wp (whenever (node.pblockOfNode ≠ 0)
      ((recheckNode inodeRef node).onError (releaseNode inodeRef node))) Q E s := by
  rw [wp_whenever]
  refine ⟨fun hb => ?_, fun _ => hQ s (.refl s)⟩
  rw [wp_onError]
  exact wp_recheckNode hc (by rw [← hc.pblockOfNode]; exact hb) ha hQ

/-! ## Inserting a separator -/

theorem Disk.getElem_slots_key {i : ℕ} (hi : i < (D.slots p).length) :
    (D.slots p)[i].firstBlock = D.key p i := by
  rw [Disk.getElem_slots hi]
  rfl

/-- Where the scan of `entry_insert_pos` stops. -/
theorem wp_entryInsertPosLoop_stop {Q : ℕ → St → Prop} (hQ : ∀ pos, pos ≤ n →
      (∀ i < pos, s.bytes.key p i ≤ k) → (pos = n ∨ k < s.bytes.key p pos) → Q pos s) :
    ∀ m pos, pos + m = n → inodeRef.Fits p n → (∀ i < pos, s.bytes.key p i ≤ k) →
      wp (entryInsertPosLoop inodeRef p k m pos) Q E s := by
  intro m
  induction m with
  | zero =>
      intro pos hpos _ hle
      exact hQ pos (by omega) hle (Or.inl (by omega))
  | succ m ih =>
      intro pos hpos hfits hle
      unfold entryInsertPosLoop
      rw [wp_bind, wp_loadKey (hfits.mono (by omega)), wp_ite]
      constructor
      · intro hlt
        exact hQ pos (by omega) hle (Or.inr hlt)
      · intro hge
        refine ih (pos + 1) (by omega) hfits fun i hi => ?_
        rcases Nat.lt_succ_iff_lt_or_eq.mp hi with hi | rfl
        · exact hle i hi
        · exact Nat.le_of_not_lt hge

/-- A position is told by the keys before and behind it. -/
theorem insert_position {α : Type} {f : α → ℕ} {l r : List α} (hl : ∀ x ∈ l, f x < k)
    (hr : ∀ x ∈ r, k ≤ f x) (hpos : pos ≤ (l ++ r).length)
    (hle : ∀ i x, i < pos → (l ++ r)[i]? = some x → f x ≤ k)
    (hgt : ∀ x, (l ++ r)[pos]? = some x → k < f x)
    (hne : 0 < pos → ∀ x, (l ++ r)[pos - 1]? = some x → f x ≠ k) :
    pos = l.length ∧ ∀ x ∈ r.head?, k < f x := by
  have hposl : pos = l.length := by
    rcases Nat.lt_trichotomy pos l.length with hlt | heq | hgt'
    · have hx := hgt l[pos] (by rw [List.getElem?_append_left hlt, List.getElem?_eq_getElem hlt])
      have hx' := hl _ (List.getElem_mem hlt)
      omega
    · exact heq
    · have hi : pos - 1 - l.length < r.length := by rw [List.length_append] at hpos; omega
      have hx : (l ++ r)[pos - 1]? = some r[pos - 1 - l.length] := by
        rw [List.getElem?_append_right (by omega), List.getElem?_eq_getElem hi]
      have hle' := hle (pos - 1) _ (by omega) hx
      have hge := hr _ (List.getElem_mem hi)
      exact absurd (Nat.le_antisymm hle' hge) (hne (by omega) _ hx)
  refine ⟨hposl, fun x hx => hgt x ?_⟩
  rw [hposl, List.getElem?_append_right (Nat.le_refl _), Nat.sub_self, ← List.head?_eq_getElem?]
  exact hx

theorem wp_keyBefore {Q : Bool → St → Prop} (hfits : inodeRef.Fits p pos) :
    wp (keyBefore inodeRef p pos k) Q E s ↔
      Q (decide (0 < pos ∧ s.bytes.key p (pos - 1) = k)) s := by
  unfold keyBefore
  by_cases h0 : 0 < pos
  · rw [if_pos h0, wp_bind, wp_loadKey (hfits.mono (by omega)), wp_pure]
    simp only [h0, true_and]
  · rw [if_neg h0, wp_pure, decide_eq_false fun h => h0 h.1]

theorem wp_insertIndexEntry (hnode : path.path[level]? = some node)
    (hc : CopyOf s.bytes node b) (ha : Acceptable inodeRef s.bytes (d + 1) b)
    (hroom : node.header.entriesCount < node.header.maxEntriesCount)
    (hs : s.bytes.slots (Place.of b) = l ++ r) (hl : ∀ x ∈ l, x.firstBlock < k)
    (hr : ∀ x ∈ r, k ≤ x.firstBlock) (hk : k < 4294967296) :
    wp (insertIndexEntry inodeRef path level k n)
      (fun _ s' => (∀ x ∈ r.head?, k < x.firstBlock) ∧
        Rewrote inodeRef s s' b ((s.bytes.header (Place.of b)).withCount ((l ++ r).length + 1))
          (l ++ (indexStorePblock ⟨k, 0, 0, 0⟩ n).asExtent :: r))
      (fun err s' => WritesSucceed inodeRef →
        Reads s s' ∧ (Troubled inodeRef s s' err ∨ ∃ x ∈ r, x.firstBlock = k)) s := by
  have hlen : (s.bytes.header (Place.of b)).entriesCount = (l ++ r).length := by
    rw [← hs, Disk.length_slots]
  have hok := ha.headerOk
  have hmax := hok.max_lt
  have hlt : (l ++ r).length < (s.bytes.header (Place.of b)).maxEntriesCount := by
    rw [← hlen, ← hc.header]
    exact hroom
  have hfits : inodeRef.Fits (Place.of b) ((l ++ r).length + 1) :=
    inodeRef.fits_of_le (Nat.le_trans hlt hok.max)
  have hplace : node.place = Place.of b := by unfold ExtentPathNode.place; rw [hc.pblockOfNode]
  unfold insertIndexEntry
  rw [wp_bind, wp_node]
  refine ⟨node, hnode, ?_⟩
  rw [if_neg (by rw [not_or, hc.header, ha.depth, ← hc.header]; exact ⟨Nat.succ_ne_zero d, by omega⟩)]
  dsimp only
  rw [wp_bind, hplace]
  refine wp_getForWrite .insertIndexEntry (fun s₀ h₀ => ?_)
    fun err s₁ h₁ hfail _ => ⟨h₁, Or.inl hfail.troubled⟩
  have hc₀ : CopyOf s₀.bytes node b := by rw [h₀.bytes]; exact hc
  have ha₀ : Acceptable inodeRef s₀.bytes (d + 1) b := by rw [h₀.bytes]; exact ha
  rw [wp_bind]
  refine wp_recheckIfBlock hc₀ ha₀ fun s₁ h₁ => ?_
  replace h₁ := h₀.trans h₁
  rw [wp_bind, entryInsertPos]
  have hslots₁ : s₁.bytes.slots (Place.of b) = l ++ r := by rw [h₁.bytes]; exact hs
  have hcount : node.header.entriesCount = (l ++ r).length := by rw [hc.header, hlen]
  have hkey {i : ℕ} {x : Ext4Extent} (hx : (l ++ r)[i]? = some x) :
      s₁.bytes.key (Place.of b) i = x.firstBlock := by
    obtain ⟨hi, rfl⟩ := List.getElem?_eq_some_iff.mp hx
    simp only [← hslots₁] at hi ⊢
    exact (Disk.getElem_slots_key hi).symm
  refine wp_entryInsertPosLoop_stop (fun pos hpos hle hgt => ?_)
    _ 0 (Nat.zero_add _) (hfits.mono (by omega)) (by omega)
  rw [hcount] at hpos hgt
  rw [wp_bind, wp_keyBefore (hfits.mono (by omega))]
  by_cases hdup : 0 < pos ∧ s₁.bytes.key (Place.of b) (pos - 1) = k
  · obtain ⟨h0, hkeq⟩ := hdup
    rw [decide_eq_true ⟨h0, hkeq⟩, if_pos rfl, wp_bind, wp_attempt]
    refine wp_releaseNode_ok (fun hn _ _ hw => absurd hw hn)
      fun s₂ h₂ _ => ⟨h₁.trans h₂, Or.inr ?_⟩
    have hi : pos - 1 < (l ++ r).length := by omega
    have hx : (l ++ r)[pos - 1].firstBlock = k :=
      (hkey (List.getElem?_eq_getElem hi)).symm.trans hkeq
    rcases List.mem_append.mp (List.getElem_mem hi) with hmem | hmem
    · exact absurd hx (Nat.ne_of_lt (hl _ hmem))
    · exact ⟨_, hmem, hx⟩
  rw [decide_eq_false hdup, if_neg (by simp)]
  have hgt' : ∀ x, (l ++ r)[pos]? = some x → k < x.firstBlock := fun x hx => by
    have hi := (List.getElem?_eq_some_iff.mp hx).1
    exact hkey hx ▸ hgt.resolve_left (by omega)
  obtain ⟨rfl, hhead⟩ := insert_position hl hr hpos (fun i x hi hx => hkey hx ▸ hle i hi) hgt'
    fun h0 x hx hxk => hdup ⟨h0, (hkey hx).trans hxk⟩
  have hfit := s.bytes.header_fits (Place.of b)
  have hlt16 : (l ++ r).length + 1 < 65536 := by omega
  have hrec : extentLayout.records (s₁.bytes (Place.of b)) (l ++ r).length = l ++ r := by
    have hcount₁ : (headerLoad (s₁.bytes (Place.of b))).entriesCount = (l ++ r).length := by
      rw [h₁.bytes]
      exact hlen
    rw [← hcount₁]
    exact hslots₁
  rw [wp_bind, hcount]
  refine wp_open hfits ?_
  rw [wp_bind, wp_storeIndex]
  refine ⟨hfits.mono (by omega), ?_⟩
  rw [wp_bind, wp_storeHeader, u16_of_lt hlt16]
  simp only [St.setBytes_setBytes, St.bytes_setBytes, Disk.set_self]
  rw [hc.header]
  have hslots := slots_inserted hfit hrec rfl hlt16
    (extent_get_indexStore_self (indexStorePblock_fits hk n)) fun i hi => extent_get_indexStore_ne hi
  refine wp_mono (wp_finishNode_stored hc.pblockOfNode h₁.quiet h₁.bytes
    ⟨_, rfl, headerLoad_headerStore (hfit.withCount hlt16), hslots⟩ (hok.withCount hlt))
    (fun _ s₂ h₂ => ⟨hhead, h₂⟩) fun _ _ hn hw => absurd hw hn

/-! ## Shortening the node -/

theorem headerLoad_shortened {d : Bytes} {m : ℕ} (hf : h.Fits) :
    headerLoad ((headerStore d h).zero (entryOff n) m) = h :=
  (headerLoad_zero (le_entryOff n)).trans (headerLoad_headerStore hf)

/-- What is cleared behind the last entry does not count. -/
theorem slots_shortened {d : Bytes} {m : ℕ} (hf : h.Fits) :
    slots ((headerStore d h).zero (entryOff h.entriesCount) (m * ext4ExtentSize)) =
      extentLayout.records d h.entriesCount := by
  unfold slots
  rw [headerLoad_shortened hf]
  refine Eq.trans ?_ (records_headerStore h)
  exact extentLayout.records_congr fun i hi => extentLayout.get_zero_outside (Or.inl hi)

theorem wp_shortenNode (hc : CopyOf s.bytes node b) (hb : b ≠ 0)
    (hok : HeaderOk inodeRef (Place.of b) (s.bytes.header (Place.of b)))
    (hs : s.bytes.slots (Place.of b) = l ++ r) (hmid : mid = l.length) :
    wp (shortenNode inodeRef node mid)
      (fun _ s' => Rewrote inodeRef s s' b ((s.bytes.header (Place.of b)).withCount mid) l)
      (fun err s' => WritesSucceed inodeRef →
        Reads s s' ∧ ReadFailed inodeRef s s' .splitShorten err) s := by
  obtain ⟨rfl, hhead⟩ := hc
  have hplace : Place.of node.pblockOfNode = .block node.pblockOfNode := Place.of_ne_zero hb
  have hlen : (s.bytes.header (Place.of node.pblockOfNode)).entriesCount = (l ++ r).length := by
    rw [← hs, Disk.length_slots]
  have hle : mid ≤ (l ++ r).length := by rw [hmid, List.length_append]; omega
  have hmax := hok.max_lt
  have hcount := hok.count
  rw [hlen] at hcount
  have hrec : extentLayout.records (s.bytes (Place.of node.pblockOfNode)) (l ++ r).length = l ++ r := by
    rw [← hlen]
    exact hs
  have hfit : ((s.bytes.header (Place.of node.pblockOfNode)).withCount mid).Fits :=
    (s.bytes.header_fits _).withCount (by omega)
  have hfits := hok.fits
  rw [hlen] at hfits
  rw [hplace] at hhead hrec hfit hok hfits ⊢
  unfold shortenNode
  rw [wp_bind]
  refine wp_mono (wp_nodeBlockGet_reads _ _) (fun _ s₁ h₁ => ?_) fun err s₁ h₁ _ => h₁
  dsimp only
  rw [wp_bind, wp_storeHeader, hhead, wp_bind, wp_clear]
  have hlen' : (s.bytes.header (.block node.pblockOfNode)).entriesCount = (l ++ r).length := by
    rw [← hplace]
    exact hlen
  refine ⟨?_, ?_⟩
  · exact entryOff_add_mul_le_iff.mpr (hfits.mono (by omega))
  simp only [St.setBytes_setBytes, St.bytes_setBytes, Disk.set_self]
  rw [h₁.bytes, u16_of_lt (by omega)]
  set dat := (headerStore (s.bytes (.block node.pblockOfNode))
    ((s.bytes.header (.block node.pblockOfNode)).withCount mid)).zero (entryOff mid)
    (((s.bytes.header (.block node.pblockOfNode)).entriesCount - mid) * ext4ExtentSize) with hdat
  have hheaddat : headerLoad dat = (s.bytes.header (.block node.pblockOfNode)).withCount mid :=
    headerLoad_shortened hfit
  have hslots : slots dat = l := by
    refine (slots_shortened hfit).trans ?_
    have htake := extentLayout.records_take hrec
    rwa [← hmid] at htake
  refine wp_mono (wp_finishBlock_stored hb h₁.quiet h₁.bytes ⟨dat, rfl, hheaddat, hslots⟩ ?_) ?_
    fun _ _ hn hw => absurd hw hn
  · exact hok.withCount (by rw [← hplace]; omega)
  · intro _ s₂ h₂
    exact h₂

/-! ## The halves on the disk -/

variable {f : Frame Ext4Extent d} {c : Ctx Ext4Extent (d + 1) e} {u u' : SepTree Ext4Extent d}
variable {b' : ℕ} {x : Ext4Extent} {h' : Ext4ExtentHeader}

theorem Lists.lower (hl : Lists es u) : Lists (es.take mid) (u.lower mid) := by
  cases u with
  | leaf a es' =>
      obtain rfl : es = es' := hl
      rfl
  | node a cs =>
      have hmap : es.map (·.child) = cs.map fun c => (c.1, c.2.addr) := hl
      show (es.take mid).map (·.child) = (cs.take mid).map fun c => (c.1, c.2.addr)
      rw [List.map_take, List.map_take, hmap]

theorem Lists.upper (hl : Lists es u) : Lists (es.drop mid) (u.upper mid b') := by
  cases u with
  | leaf a es' =>
      obtain rfl : es = es' := hl
      rfl
  | node a cs =>
      have hmap : es.map (·.child) = cs.map fun c => (c.1, c.2.addr) := hl
      show (es.drop mid).map (·.child) = (cs.drop mid).map fun c => (c.1, c.2.addr)
      rw [List.map_drop, List.map_drop, hmap]

/-- The node in the hole was rewritten to another one. -/
theorem Rewrote.plug {c : Ctx Ext4Extent d e} (hr : Rewrote inodeRef s s' b h es)
    (hrep : c.Around (RepAt inodeRef g s.bytes) u) (hc : b ∉ c.addrs) (haddr : u'.addr = u.addr)
    (hself : RepAt inodeRef g s'.bytes u') (hbelow : u'.Below (RepAt inodeRef g s.bytes))
    (hb : b ∉ u'.below) : Rep inodeRef g s'.bytes (c.plug u') := by
  refine (Ctx.all_plug c u').mpr ⟨SepTree.all_iff.mpr ⟨hself, ?_⟩, hr.around hrep hc haddr⟩
  refine SepTree.Below.imp hbelow fun v hv hrepv => hrepv.congr (hr.bytes_eq ?_)
  rintro rfl
  exact hb hv

/-- The upper half is named in the parent, the lower half not yet cut. -/
theorem rep_beside (hrep : Rep inodeRef g s.bytes ((Ctx.cons f c).plug u))
    (hnodup : ((Ctx.cons f c).plug u).addrs.Nodup) (hb0 : b' ≠ 0)
    (hb : b' ∉ ((Ctx.cons f c).plug u).addrs) (hnew : Rewrote inodeRef s s₁ b' h es)
    (hh : HeaderOk inodeRef (Place.of b') h) (hd : h.depth = d)
    (hmax : h.maxEntriesCount = capacity inodeRef)
    (hes : es = (s.bytes.slots (Place.of u.addr)).drop mid)
    (hpar : Rewrote inodeRef s₁ s' f.addr h' (l ++ x :: r))
    (hh' : HeaderOk inodeRef (Place.of f.addr) h') (hd' : h'.depth = d + 1)
    (hdecl : g.Declares inodeRef f.addr h'.maxEntriesCount)
    (hl : l.map (·.child) = (f.left ++ [(f.key, u)]).map fun c => (c.1, c.2.addr))
    (hx : x.child = (k, b')) (hright : r.map (·.child) = f.right.map fun c => (c.1, c.2.addr)) :
    Rep inodeRef g s'.bytes ((Ctx.cons (f.beside (k, u.upper mid b')) c).plug u) := by
  obtain ⟨hcnodup, -, hapart⟩ := Ctx.nodup_plug hnodup
  obtain ⟨hfsib, hfc, -⟩ := Ctx.nodup_cons hcnodup
  have hfu : f.addr ∉ u.addrs := fun hf => hapart _ hf Ctx.addr_mem_cons
  rw [Ctx.addrs_plug, Multiset.mem_add, not_or] at hb
  obtain ⟨hbc, hbu⟩ := hb
  have hbf : b' ≠ f.addr := by
    rintro rfl
    exact hbc Ctx.addr_mem_cons
  obtain ⟨hu, hf, hsib, hc⟩ := (Ctx.all_plug _ u).mp hrep
  -- a subtree with neither node in it
  have keep {d' : ℕ} {v : SepTree Ext4Extent d'} (hv : Rep inodeRef g s.bytes v)
      (hfv : f.addr ∉ v.addrs) (hbv : b' ∉ v.addrs) : Rep inodeRef g s'.bytes v :=
    Rewrote.rep hpar (Rewrote.rep hnew hv hbv) hfv
  have hupper : Rep inodeRef g s'.bytes (u.upper mid b') := by
    have hself : RepAt inodeRef g s₁.bytes (u.upper mid b') := by
      refine Rewrote.repAt (u := u.upper mid b') (by rw [SepTree.addr_upper]; exact hnew) ?_ hd ?_ ?_
      · rwa [SepTree.addr_upper]
      · rw [hmax]
        exact Grade.declares_capacity _
      · rw [hes]
        exact Lists.upper hu.self.entries
    refine SepTree.all_iff.mpr ⟨hself.congr ?_, ?_⟩
    · rw [SepTree.addr_upper]
      exact hpar.bytes_eq hbf
    · refine SepTree.Below.imp hu.below.upper fun v hv hrepv => hrepv.congr ?_
      have hvu : v.addr ∈ u.addrs := SepTree.mem_addrs_of_below (SepTree.mem_below_upper hv)
      refine (hpar.bytes_eq ?_).trans (hnew.bytes_eq ?_)
      · exact fun heq => hfu (heq ▸ hvu)
      · exact fun heq => hbu (heq ▸ hvu)
  refine (Ctx.all_plug _ u).mpr ⟨keep hu hfu hbu, ?_, ?_, ?_⟩
  · refine Rewrote.repAt (u := (f.beside (k, u.upper mid b')).fill u) hpar hh' hd' hdecl ?_
    show List.map _ _ = List.map _ (f.left ++ (f.key, u) :: (k, u.upper mid b') :: f.right)
    rw [List.map_append, hl, List.map_cons, hx, hright]
    simp
  · intro v hv
    have hold (hv : v ∈ f.siblings) : Rep inodeRef g s'.bytes v.2 :=
      keep (hsib v hv) (hfsib v hv) fun hin => hbc (Ctx.sibling_mem hv hin)
    rcases List.mem_append.mp hv with hv | hv
    · exact hold (List.mem_append_left _ hv)
    · rcases List.mem_cons.mp hv with rfl | hv
      · exact hupper
      · exact hold (List.mem_append_right _ hv)
  · exact hpar.around (hnew.around hc (fun hin => hbc (Ctx.outer_mem hin)) rfl) hfc rfl

/-! ## A split tree is a good tree -/

theorem keys_sorted (hord : u.Ordered) (hmarks : u.marks.Pairwise (· ≤ ·))
    (hext : ∀ x ∈ u.items, extentInRange inodeRef x = true) : u.keys.Pairwise (· < ·) := by
  cases u with
  | node b cs => exact hord.self
  | leaf b es =>
      have hsorted : es.Pairwise fun x y => stop x ≤ first y := SepTree.items_sorted hmarks
      rw [SepTree.keys_leaf, List.pairwise_map]
      refine List.Pairwise.imp_of_mem (fun {x y} hx _ hxy => ?_) hsorted
      exact Nat.lt_of_lt_of_le (first_lt_stop (hext x hx)) hxy

/-- The first key of the upper half lies between the keys around the node. -/
theorem TreeOk.split_keys (ok : TreeOk inodeRef g ((Ctx.cons f c).plug u)) (h0 : 0 < mid)
    (hk : (u.keys.drop mid).head? = some k) :
    (∀ x ∈ f.left ++ [(f.key, u)], x.1 < k) ∧ ∀ x ∈ f.right, k ≤ x.1 := by
  obtain ⟨hord, -, hmarks, hext⟩ := ok.sub rfl
  have hkeys := keys_sorted hord hmarks hext
  have hmid : u.keys[mid]? = some k := by rwa [← List.head?_drop]
  obtain ⟨hmidlt, hmidk⟩ := List.getElem?_eq_some_iff.mp hmid
  have hfirst : u.keys[0] < k := by
    have := List.pairwise_iff_getElem.mp hkeys 0 mid (by omega) hmidlt h0
    omega
  have hall : (Ctx.marksOf f.left ++ f.key :: u.marks ++ Ctx.marksOf f.right).Pairwise (· ≤ ·) := by
    have h := ok.sorted
    rw [Ctx.plug_cons, Ctx.marks_plug, List.pairwise_append, List.pairwise_append] at h
    have hfill := h.1.2.1
    simpa [Frame.fill, Ctx.marksOf] using hfill
  obtain ⟨hleft, -, hcross⟩ := List.pairwise_append.mp hall
  obtain ⟨-, hu, hlu⟩ := List.pairwise_append.mp hleft
  have hkey : f.key < k := by
    have hmem : u.keys[0] ∈ u.marks := SepTree.mem_marks_of_mem_keys (List.getElem_mem _)
    have := (List.pairwise_cons.mp hu).1 _ hmem
    omega
  refine ⟨fun x hx => ?_, fun x hx => ?_⟩
  · rcases List.mem_append.mp hx with hx | hx
    · have hxl : x.1 ∈ Ctx.marksOf f.left := List.mem_flatMap.mpr ⟨x, hx, by simp⟩
      have := hlu _ hxl f.key (by simp)
      omega
    · obtain rfl := List.mem_singleton.mp hx
      exact hkey
  · have hxr : x.1 ∈ Ctx.marksOf f.right := List.mem_flatMap.mpr ⟨x, hx, by simp⟩
    have hkm : k ∈ u.marks := SepTree.mem_marks_of_mem_keys (hmidk ▸ List.getElem_mem _)
    exact hcross k (by simp [hkm]) _ hxr

theorem TreeOk.split (ok : TreeOk inodeRef g ((Ctx.cons f c).plug u)) (h0 : 0 < mid)
    (hk : (u.keys.drop mid).head? = some k) (hr : ∀ x ∈ f.right, k < x.1)
    (hlt : b' < inodeRef.blocksCnt) (hb : b' ∉ ((Ctx.cons f c).plug u).addrs) :
    TreeOk inodeRef g (c.plug (f.split u mid b' k)) := by
  have haddrs : (c.plug (f.split u mid b' k)).addrs = b' ::ₘ ((Ctx.cons f c).plug u).addrs := by
    rw [Ctx.addrs_plug, Frame.addrs_split, Ctx.plug_cons, Ctx.addrs_plug, Multiset.add_cons]
  have hitems : (c.plug (f.split u mid b' k)).items = ((Ctx.cons f c).plug u).items := by
    rw [Ctx.items_plug, Frame.items_split, Ctx.plug_cons, Ctx.items_plug]
  have hmid : mid < u.keys.length := by
    rw [List.head?_drop] at hk
    exact (List.getElem?_eq_some_iff.mp hk).1
  obtain ⟨hleft, -⟩ := ok.split_keys h0 hk
  refine ⟨?_, ?_, ?_, Ctx.sorted_split ok.sorted hk, ?_, ?_, ?_⟩
  · have := ok.addr
    rw [Ctx.addr_plug] at this ⊢
    exact this
  · rw [haddrs]
    exact Multiset.nodup_cons.mpr ⟨hb, ok.nodup⟩
  · intro a ha ha0
    rw [haddrs, Multiset.mem_cons] at ha
    rcases ha with rfl | ha
    · exact hlt
    · exact ok.inside a ha ha0
  · obtain ⟨hfill, haround⟩ := (Ctx.all_plug c (f.fill u)).mp ok.ordered
    refine (Ctx.all_plug c _).mpr ⟨?_, Ctx.around_ordered _ _ haround⟩
    exact Frame.ordered_split hfill (hleft (f.key, u) (by simp)) hr
  · refine ok.bushy.imp id fun hbushy => ?_
    obtain ⟨hfill, haround⟩ := (Ctx.all_plug c (f.fill u)).mp hbushy
    refine (Ctx.all_plug c _).mpr ⟨?_, Ctx.around_bushy _ _ haround⟩
    exact Frame.bushy_split hfill (fun _ => Grade.holds_of_ne_nil) h0 hmid
  · rw [hitems]
    exact ok.inRange

/-! ## The split -/

variable {base own : Multiset ℕ} {parent : ExtentPathNode}

theorem wp_freeNewMetadataBlock {α : Type} {Q : α → St → Prop} {err : Errno}
    (hE : WritesSucceed inodeRef → E err (s.log (.io (.ballocFreeBlock b) none))) :
    wp (freeNewMetadataBlock inodeRef b err : M α) Q
      (fun e s' => WritesSucceed inodeRef → E e s') s := by
  unfold freeNewMetadataBlock
  rw [wp_bind, wp_attempt, wp_ballocFreeBlock]
  exact ⟨fun _ => hE, fun e he hw => absurd hw (not_writesSucceed rfl he)⟩

theorem wp_abandonNewBlock {α : Type} {Q : α → St → Prop} {err : Errno} {held : ℕ}
    (hE : ∀ s₁, Reads s s₁ → WritesSucceed inodeRef →
      E err (s₁.log (.io (.ballocFreeBlock b) none))) :
    wp (abandonNewBlock inodeRef (blockSet inodeRef held) b err : M α) Q
      (fun e s' => WritesSucceed inodeRef → E e s') s := by
  unfold abandonNewBlock
  rw [wp_bind, wp_attempt]
  exact wp_blockSet_ok (fun hn _ _ => wp_freeNewMetadataBlock fun hw => absurd hw hn)
    fun s₁ h₁ => wp_freeNewMetadataBlock (hE s₁ h₁)

/-- The new block is given back; the tree never saw it. -/
theorem Holding.returned {t : SepTree Ext4Extent d} {s₂ s₃ : St} (hold : Holding inodeRef g base s t)
    (hspent : Spent base s s₁ {b}) (hbytes : s₁.bytes = s.bytes) (hb : b ∉ t.addrs)
    (hnew : Rewrote inodeRef s₁ s₂ b h es) (hreads : Reads s₂ s₃) :
    Holding inodeRef g base (s₃.log (.io (.ballocFreeBlock b) none)) t ∧
      Spent base s (s₃.log (.io (.ballocFreeBlock b) none)) 0 := by
  have hspent₃ : Spent base s s₃ (blockRun b 1 + 0) := by
    rw [blockRun_one, add_zero]
    exact (hspent.quiet hnew.quiet).quiet hreads.quiet
  have hgive : Spent base s (s₃.log (.io (.ballocFreeBlock b) none)) 0 := hspent₃.give rfl
  have hrep : Rep inodeRef g (s₃.log (.io (.ballocFreeBlock b) none)).bytes t := by
    show Rep inodeRef g s₃.bytes t
    rw [hreads.bytes]
    exact hnew.rep (by rw [hbytes]; exact hold.rep) hb
  have hnext := hold.next hgive hrep hold.ok (by rw [zero_add]; exact hold.within)
  rw [zero_add] at hnext
  exact ⟨hnext, hgive⟩

/-- The first key of a node, read from its bytes. -/
theorem Disk.key_zero (hk : ((D.slots p).map (·.firstBlock)).head? = some k) : D.key p 0 = k := by
  rw [List.head?_map] at hk
  obtain ⟨x, hx, rfl⟩ := Option.map_eq_some_iff.mp hk
  rw [List.head?_eq_getElem?] at hx
  obtain ⟨h0, rfl⟩ := List.getElem?_eq_some_iff.mp hx
  exact (Disk.getElem_slots_key h0).symm

theorem Stored.slots (hs : Stored s p h es s') : s'.bytes.slots p = es := by
  obtain ⟨dat, rfl, -, hslots⟩ := hs
  unfold Disk.slots
  rw [St.bytes_setBytes, Disk.set_self, hslots]

theorem Stored.reads {s₂ : St} (hs : Stored s p h es s₁) (hreads : Reads s₁ s₂) :
    ∃ s', Reads s s' ∧ Stored s' p h es s₂ := by
  obtain ⟨dat, rfl, hhead, hslots⟩ := hs
  refine ⟨{ s with trace := s₂.trace }, ⟨rfl, rfl, hreads.trace⟩, dat, ?_, hhead, hslots⟩
  obtain ⟨bytes, dirty, trace⟩ := s₂
  obtain ⟨rfl, rfl, -⟩ := hreads
  rfl

/-- Nodes with the same address in a hole, for the checks around it. -/
theorem around_fit_congr {c : Ctx Ext4Extent d e} (h : c.Around (FitAt inodeRef) u)
    (haddr : u'.addr = u.addr) : c.Around (FitAt inodeRef) u' := by
  refine Ctx.around_congr (r := fun t t' => t'.addr = t.addr) (fun _ _ _ => rfl)
    (fun f t t' hs hf => ?_) haddr h
  obtain ⟨-, hkeys, hchildren⟩ := hf
  refine ⟨by simp, ?_, fun x hx => ?_⟩
  · rw [List.map_append, List.map_cons] at hkeys ⊢
    exact hkeys
  · rcases List.mem_append.mp hx with hx | hx
    · exact hchildren x (List.mem_append_left _ hx)
    · rcases List.mem_cons.mp hx with rfl | hx
      · rw [hs]
        exact hchildren (f.key, t) (by simp)
      · exact hchildren x (by simp [hx])

theorem FitAt.upper (h : FitAt inodeRef u) (hmid : mid < u.keys.length) :
    FitAt inodeRef (u.upper mid b') := by
  cases u with
  | leaf a es =>
      exact ⟨fun x hx => h.inRange x (List.mem_of_mem_drop hx),
        h.sorted.sublist (List.drop_sublist mid es)⟩
  | node a cs =>
      obtain ⟨-, hkeys, hchildren⟩ := h
      rw [SepTree.keys_node, List.length_map] at hmid
      refine ⟨?_, ?_, fun x hx => hchildren x (List.mem_of_mem_drop hx)⟩
      · intro hnil
        have hlen := congrArg List.length hnil
        rw [List.length_drop, List.length_nil] at hlen
        omega
      · rw [List.map_drop]
        exact hkeys.sublist (List.drop_sublist mid _)

/-- The node above the hole with the new child beside it. -/
theorem FitAt.beside {y : ℕ × SepTree Ext4Extent d} (h : FitAt inodeRef (f.fill u))
    (hl : ∀ x ∈ f.left ++ [(f.key, u)], x.1 < y.1) (hr : ∀ x ∈ f.right, y.1 < x.1)
    (hy : y.2.addr ≠ 0 ∧ y.2.addr < inodeRef.blocksCnt) :
    FitAt inodeRef ((f.beside y).fill u) := by
  obtain ⟨-, hkeys, hchildren⟩ := h
  have hsplit : f.left ++ (f.key, u) :: f.right = (f.left ++ [(f.key, u)]) ++ f.right := by simp
  have hsplit' : f.left ++ (f.key, u) :: y :: f.right = (f.left ++ [(f.key, u)]) ++ y :: f.right := by
    simp
  rw [hsplit, List.pairwise_map, List.pairwise_append] at hkeys
  obtain ⟨hkl, hkr, hklr⟩ := hkeys
  rw [hsplit] at hchildren
  show FitAt inodeRef (SepTree.node f.addr (f.left ++ (f.key, u) :: y :: f.right))
  rw [hsplit']
  refine ⟨by simp, ?_, fun x hx => ?_⟩
  · rw [List.pairwise_map, List.pairwise_append, List.pairwise_cons]
    refine ⟨hkl, ⟨hr, hkr⟩, fun a ha x hx => ?_⟩
    rcases List.mem_cons.mp hx with rfl | hx
    · exact hl a ha
    · exact hklr a ha x hx
  · rcases List.mem_append.mp hx with hx | hx
    · exact hchildren x (List.mem_append_left _ hx)
    · rcases List.mem_cons.mp hx with rfl | hx
      · exact hy
      · exact hchildren x (List.mem_append_right _ hx)

/-- The tree with the upper half of `u` in it twice. -/
theorem TornTo.of_beside (ok : TreeOk inodeRef g ((Ctx.cons f c).plug u)) (h0 : 0 < mid)
    (hk : (u.keys.drop mid).head? = some k) (hright : ∀ x ∈ f.right, k < x.1)
    (hb : b' ≠ 0 ∧ b' < inodeRef.blocksCnt)
    (hrep : Rep inodeRef g s'.bytes ((Ctx.cons (f.beside (k, u.upper mid b')) c).plug u))
    (hspent : Spent base s s' {b'}) :
    TornTo inodeRef g base s s' ((Ctx.cons f c).plug u) {b'}
      ((Ctx.cons (f.beside (k, u.upper mid b')) c).plug u) := by
  have hmid : mid < u.keys.length := by
    rw [List.head?_drop] at hk
    exact (List.getElem?_eq_some_iff.mp hk).1
  obtain ⟨hfitu, hfitf, hfits, hfitc⟩ := (Ctx.all_plug _ u).mp ok.fit
  obtain ⟨hleft, -⟩ := ok.split_keys h0 hk
  have hbeside : FitAt inodeRef ((f.beside (k, u.upper mid b')).fill u) := by
    refine FitAt.beside (y := (k, u.upper mid b')) hfitf hleft hright ?_
    rw [SepTree.addr_upper]
    exact hb
  refine ⟨hrep, hspent, ?_, fun y hy => ?_, fun a ha => ?_, ?_, fun v => ?_⟩
  · rw [Ctx.addr_plug, Ctx.addr_plug]
    rfl
  · refine (Ctx.mem_items_beside hy).elim (fun hy => ?_) id
    rw [Ctx.items_plug]
    exact List.mem_append_left _ (List.mem_append_right _ (SepTree.mem_items_upper hy))
  · rw [Ctx.addrs_plug, Ctx.addrs_beside, SepTree.addrs_eq (u.upper mid b'), SepTree.addr_upper] at ha
    rw [Ctx.addrs_plug]
    simp only [Multiset.mem_add, Multiset.mem_cons, Multiset.mem_singleton] at ha ⊢
    rcases ha with ((rfl | ha) | ha) | ha
    · exact Or.inl rfl
    · exact Or.inr (Or.inr (SepTree.mem_addrs_of_below (SepTree.mem_below_upper ha)))
    · exact Or.inr (Or.inl ha)
    · exact Or.inr (Or.inr ha)
  · refine (Ctx.all_plug _ u).mpr ⟨hfitu, hbeside, fun x hx => ?_, around_fit_congr hfitc rfl⟩
    rcases List.mem_append.mp hx with hx | hx
    · exact hfits x (List.mem_append_left _ hx)
    · rcases List.mem_cons.mp hx with rfl | hx
      · exact SepTree.all_iff.mpr ⟨hfitu.self.upper hmid, hfitu.below.upper⟩
      · exact hfits x (List.mem_append_right _ hx)
  · refine Ctx.seek_congr ?_ c
    exact Frame.seek_beside hbeside.sortedAt (fun _ => rfl)
      fun hv => SepTree.seek_upper hfitu.self.sortedAt hk hv

/-- The keys behind a node increase, so the first one bounds them all. -/
theorem keys_above {cs : List (ℕ × SepTree Ext4Extent d)}
    (hord : (cs.map fun c => c.1).Pairwise (· < ·))
    (hr : r.map (·.child) = cs.map fun c => (c.1, c.2.addr))
    (hhead : ∀ x ∈ r.head?, k < x.firstBlock) : ∀ y ∈ cs, k < y.1 := by
  intro y hy
  rcases cs with _ | ⟨z, cs⟩
  · cases hy
  rcases r with _ | ⟨x, r⟩
  · cases hr
  have hzx : z.1 = x.firstBlock := congrArg Prod.fst (List.cons.inj hr).1.symm
  have hkz : k < z.1 := hzx ▸ hhead x rfl
  rw [List.map_cons, List.pairwise_cons] at hord
  rcases List.mem_cons.mp hy with rfl | hy
  · exact hkz
  · exact Nat.lt_trans hkz (hord.1 y.1 (List.mem_map_of_mem hy))

theorem TreeOk.ordered_right (ok : TreeOk inodeRef g ((Ctx.cons f c).plug u)) :
    (f.right.map fun c => c.1).Pairwise (· < ·) := by
  have hord : ((f.left ++ (f.key, u) :: f.right).map fun c => c.1).Pairwise (· < ·) :=
    (((Ctx.all_plug _ u).mp ok.ordered).2).1
  rw [List.map_append, List.pairwise_append, List.map_cons, List.pairwise_cons] at hord
  exact hord.2.1.2

/-- The new block named in the parent reads back as the child `b'` with the key `k`. -/
theorem child_indexStorePblock (hk : k < 4294967296) (hb : b' < pblockLimit) :
    (indexStorePblock ⟨k, 0, 0, 0⟩ b').asExtent.child = (k, b') := by
  rw [Ext4ExtentIndex.child_asExtent (indexStorePblock_fits hk b'), indexGetPblock_store hb]
  rfl

/-- Cutting the node whose upper half is named beside it. -/
theorem wp_shortenHalf
    (hold : Holding inodeRef g base s ((Ctx.cons f c).plug u)) (hc : CopyOf s.bytes node u.addr)
    (hu0 : node.pblockOfNode ≠ 0) (hmid : mid < node.header.entriesCount) (h0 : 0 < mid)
    (hk : (u.keys.drop mid).head? = some k) (hright : ∀ x ∈ f.right, k < x.1)
    (hb : b' ≠ 0 ∧ b' < inodeRef.blocksCnt) (hbt : b' ∉ ((Ctx.cons f c).plug u).addrs)
    (hrep : Rep inodeRef g s₁.bytes ((Ctx.cons (f.beside (k, u.upper mid b')) c).plug u))
    (hbytes : s₁.bytes (Place.of u.addr) = s.bytes (Place.of u.addr))
    (hmax : s₁.bytes.rootMax = s.bytes.rootMax) (hspent : Spent base s s₁ {b'}) :
    wp (shortenNode inodeRef node mid)
      (fun _ s' => Holding inodeRef g (b' ::ₘ base) s' (c.plug (f.split u mid b' k)) ∧
        Spent base s s' {b'} ∧ s'.bytes.rootMax = s.bytes.rootMax)
      (fun err s' => WritesSucceed inodeRef → ReadFailed inodeRef s s' .splitShorten err ∧
        Torn inodeRef g base s s' ((Ctx.cons f c).plug u)) s₁ := by
  obtain ⟨hcnodup, hunodup, hapart⟩ := Ctx.nodup_plug hold.ok.nodup
  have hacc : Acceptable inodeRef s.bytes d u.addr := hold.ok.acceptable hold.rep rfl
  have hu := ((Ctx.all_plug _ u).mp hold.rep).1
  have hslots : s₁.bytes.slots (Place.of u.addr) =
      (s.bytes.slots (Place.of u.addr)).take mid ++ (s.bytes.slots (Place.of u.addr)).drop mid := by
    unfold Disk.slots
    rw [hbytes, List.take_append_drop]
  have hheader : s₁.bytes.header (Place.of u.addr) = s.bytes.header (Place.of u.addr) := by
    unfold Disk.header
    rw [hbytes]
  have hlen : (s.bytes.slots (Place.of u.addr)).length = node.header.entriesCount := by
    rw [Disk.length_slots, ← hc.header]
  refine wp_mono (wp_shortenNode (b := u.addr) (hc.congr hbytes) (hc.pblockOfNode ▸ hu0)
    (by rw [hheader]; exact hacc.headerOk) hslots (by rw [List.length_take, hlen]; omega)) ?_ ?_
  · -- the node is cut
    intro _ s₂ hcut
    rw [hheader] at hcut
    have hspent₂ := hspent.quiet hcut.quiet
    have hmax₂ := hcut.rootMax fun hu => absurd hu (hc.pblockOfNode ▸ hu0)
    refine ⟨?_, hspent₂, hmax₂.trans hmax⟩
    rw [← Multiset.singleton_add]
    have hubelow : u.addr ∉ u.below := by
      rw [SepTree.addrs_eq, Multiset.nodup_cons] at hunodup
      exact hunodup.1
    have hub : u.addr ≠ b' := by
      rintro rfl
      rw [Ctx.addrs_plug, Multiset.mem_add] at hbt
      exact hbt (Or.inr (SepTree.addr_mem_addrs u))
    have hucut : u.addr ∉ (Ctx.cons (f.beside (k, u.upper mid b')) c).addrs := by
      rw [Ctx.addrs_beside, SepTree.addrs_eq (u.upper mid b'), SepTree.addr_upper,
        Multiset.mem_add, Multiset.mem_cons, not_or, not_or]
      exact ⟨⟨hub, fun hin => hubelow (SepTree.mem_below_upper hin)⟩,
        hapart _ (SepTree.addr_mem_addrs u)⟩
    have hself : RepAt inodeRef g s₂.bytes (u.lower mid) := by
      have haddr : (u.lower mid).addr = u.addr := SepTree.addr_lower u
      rw [← haddr] at hcut
      refine Rewrote.repAt (u := u.lower mid) hcut ?_ ?_ ?_ ?_
      · rw [haddr]
        exact hacc.headerOk.withCount (Nat.le_trans (by rw [← hc.header]; omega) hacc.headerOk.count)
      · rw [haddr]
        exact hacc.depth
      · rw [haddr]
        exact hu.self.declares
      · rw [haddr]
        exact Lists.lower hu.self.entries
    have hrep₂ : Rep inodeRef g s₂.bytes (c.plug (f.split u mid b' k)) := by
      rw [Frame.split_eq, ← Ctx.plug_cons]
      obtain ⟨hu₁, haround₁⟩ := (Ctx.all_plug _ u).mp hrep
      exact hcut.plug haround₁ hucut (SepTree.addr_lower u) hself hu₁.below.lower
        fun hin => hubelow (SepTree.mem_below_lower hin)
    refine hold.next hspent₂ hrep₂ (hold.ok.split h0 hk hright hb.2 hbt) fun a ha => ?_
    rw [Ctx.below_plug Frame.addr_split (show _ = {b'} + (f.fill u).addrs from Frame.addrs_split),
      Multiset.mem_add] at ha
    rw [Multiset.mem_add]
    exact ha.imp id (hold.within a)
  · -- the cut is missing
    intro err s₂ h hw
    obtain ⟨hreads, hfail⟩ := h hw
    rw [← hreads.bytes] at hrep
    exact ⟨hfail.earlier hspent.suffix, _, _,
      .of_beside hold.ok h0 hk hright hb hrep (hspent.quiet hreads.quiet)⟩

/-- Naming the upper half in the parent, and cutting the node. -/
theorem wp_linkUpper (hcnt : inodeRef.blocksCnt ≤ pblockLimit)
    (hold : Holding inodeRef g base s ((Ctx.cons f c).plug u)) (hc : CopyOf s.bytes node u.addr)
    (hu0 : node.pblockOfNode ≠ 0) (hmid : mid < node.header.entriesCount) (h0 : 0 < mid)
    (hparent : path.path[c.length]? = some parent) (hat : NodeAt s.bytes parent f)
    (hroom : parent.header.entriesCount < parent.header.maxEntriesCount)
    (hup : UpperAt inodeRef base s s₁ u mid b' k) :
    wp (do
        (insertIndexEntry inodeRef path c.length k b').orElse (freeNewMetadataBlock inodeRef b')
        shortenNode inodeRef node mid)
      (fun _ s' => Holding inodeRef g (b' ::ₘ base) s' (c.plug (f.split u mid b' k)) ∧
        Spent base s s' {b'} ∧ s'.bytes.rootMax = s.bytes.rootMax)
      (fun err s' => WritesSucceed inodeRef →
        (Holding inodeRef g base s' ((Ctx.cons f c).plug u) ∧ Spent base s s' 0 ∧
          ((∀ x ∈ f.right, k < x.1) → Troubled inodeRef s s' err)) ∨
        ReadFailed inodeRef s s' .splitShorten err ∧
          Torn inodeRef g base s s' ((Ctx.cons f c).plug u)) s₁ := by
  obtain ⟨hb0, hblt, hbbase, hk, s₀, h, hspent, hbytes, hh, hd, hmax, hnew⟩ := hup
  have hbt := hold.fresh hb0 hbbase
  have hf := ((Ctx.all_plug _ u).mp hold.rep).2.1
  have hacc' : Acceptable inodeRef s.bytes (d + 1) f.addr :=
    hold.ok.acceptable hold.rep (c := c) (u := f.fill u) rfl
  have hapart := (Ctx.nodup_plug hold.ok.nodup).2.2
  have hub : u.addr ≠ b' := by
    rintro rfl
    rw [Ctx.addrs_plug, Multiset.mem_add] at hbt
    exact hbt (Or.inr (SepTree.addr_mem_addrs u))
  have hfb : f.addr ≠ b' := by
    rintro heq
    rw [Ctx.addrs_plug, Multiset.mem_add] at hbt
    exact hbt (Or.inl (heq ▸ Ctx.addr_mem_cons))
  have hfu : u.addr ≠ f.addr := fun heq =>
    hapart _ (SepTree.addr_mem_addrs u) (heq ▸ Ctx.addr_mem_cons)
  have hf₁ : s₁.bytes (Place.of f.addr) = s.bytes (Place.of f.addr) := by
    rw [hnew.bytes_eq hfb, hbytes]
  have hheadf : s₁.bytes.header (Place.of f.addr) = s.bytes.header (Place.of f.addr) := by
    unfold Disk.header
    rw [hf₁]
  have hkfit : k < 4294967296 := by
    have hkeys : (s.bytes.slots (Place.of u.addr)).map (·.firstBlock) = u.keys :=
      Lists.keys ((Ctx.all_plug _ u).mp hold.rep).1.self.entries
    have hmem : k ∈ u.keys := List.mem_of_mem_drop (List.mem_of_mem_head? hk)
    rw [← hkeys] at hmem
    obtain ⟨x, hx, rfl⟩ := List.mem_map.mp hmem
    exact (Disk.slots_fits x hx).firstBlock
  obtain ⟨l, x, r, hsplit, hl, hx, hright, -⟩ := hat.slots hf.entries
  obtain ⟨hbelow, habove⟩ := hold.ok.split_keys h0 hk
  have hchild {y : Ext4Extent} {ys : List Ext4Extent} {cs : List (ℕ × SepTree Ext4Extent d)}
      (hmap : ys.map (·.child) = cs.map fun c => (c.1, c.2.addr)) (hy : y ∈ ys) :
      ∃ z ∈ cs, z.1 = y.firstBlock := by
    have hmem : y.child ∈ cs.map fun c => (c.1, c.2.addr) := hmap ▸ List.mem_map_of_mem hy
    obtain ⟨z, hz, hzy⟩ := List.mem_map.mp hmem
    exact ⟨z, hz, congrArg Prod.fst hzy⟩
  have hlx : (l ++ [x]).map (·.child) = (f.left ++ [(f.key, u)]).map fun c => (c.1, c.2.addr) := by
    rw [List.map_append, List.map_append, hl, List.map_singleton, hx]
    rfl
  have hslots₁ : s₁.bytes.slots (Place.of f.addr) = (l ++ [x]) ++ r := by
    unfold Disk.slots at hsplit ⊢
    rw [hf₁, hsplit]
    simp
  rw [wp_bind, wp_orElse]
  refine wp_mono (wp_insertIndexEntry (b := f.addr) hparent (hat.copyOf.congr hf₁)
    (hacc'.congr hf₁) hroom hslots₁ (fun y hy => ?_) (fun y hy => ?_) hkfit) ?_ ?_
  · obtain ⟨z, hz, hzy⟩ := hchild hlx hy
    exact hzy ▸ hbelow z hz
  · obtain ⟨z, hz, hzy⟩ := hchild hright hy
    exact hzy ▸ habove z hz
  swap
  · -- the parent refuses it
    intro err s₂ h
    refine wp_freeNewMetadataBlock fun hw => ?_
    obtain ⟨h₂, hreason⟩ := h hw
    obtain ⟨hback, hspent₂⟩ := hold.returned hspent hbytes hbt hnew h₂
    refine Or.inl ⟨hback, hspent₂, fun hstrict => ?_⟩
    rcases hreason with htrouble | ⟨y, hy, hyk⟩
    · exact (htrouble.earlier (hspent.quiet hnew.quiet).suffix).mono (s₂.suffix_log _)
    · obtain ⟨z, hz, hzy⟩ := hchild hright hy
      have := hstrict z hz
      omega
  rintro _ s₂ ⟨hrhead, hpar⟩
  rw [hheadf] at hpar
  have hcount : ((l ++ [x]) ++ r).length < (s.bytes.header (Place.of f.addr)).maxEntriesCount := by
    have hlen' : ((l ++ [x]) ++ r).length = parent.header.entriesCount := by
      rw [hat.header, ← hheadf, ← Disk.length_slots, hslots₁]
    rw [← hat.header, hlen']
    exact hroom
  have hrep₂ : Rep inodeRef g s₂.bytes ((Ctx.cons (f.beside (k, u.upper mid b')) c).plug u) :=
    rep_beside (by rw [hbytes]; exact hold.rep) hold.ok.nodup hb0 hbt hnew hh hd hmax
      (by rw [hbytes]) hpar (hacc'.headerOk.withCount (by omega)) hacc'.depth hf.declares hlx
      (child_indexStorePblock hkfit (by omega)) hright
  have hu₂ : s₂.bytes (Place.of u.addr) = s.bytes (Place.of u.addr) := by
    rw [hpar.bytes_eq hfu, hnew.bytes_eq hub, hbytes]
  have hrest : ∀ y ∈ f.right, k < y.1 := keys_above hold.ok.ordered_right hright hrhead
  have hmax₂ : s₂.bytes.rootMax = s.bytes.rootMax := by
    have hmax₁ := hnew.rootMax fun hb => absurd hb hb0
    refine (hpar.rootMax fun hroot => ?_).trans (hmax₁.trans (congrArg Disk.rootMax hbytes))
    rw [hmax₁, hbytes]
    show (s.bytes.header (Place.of f.addr)).maxEntriesCount = _
    rw [hroot]
    rfl
  exact wp_mono (wp_shortenHalf hold hc hu0 hmid h0 hk hrest ⟨hb0, hblt⟩ hbt hrep₂ hu₂ hmax₂
    ((hspent.quiet hnew.quiet).quiet hpar.quiet)) (fun _ _ h => h) fun _ _ h hw => Or.inr (h hw)

/-- Writing the upper half to the new block `b'`. -/
theorem wp_writeUpper {α : Type} {Q : α → St → Prop} {K : ℕ → M α} {sourceBlock : ℕ}
    (hold : Holding inodeRef g base s ((Ctx.cons f c).plug u))
    (hc : CopyOf s.bytes node u.addr) (hu0 : node.pblockOfNode ≠ 0)
    (hsource : node.pblockOfNode = sourceBlock) (hmid : mid < node.header.entriesCount)
    (hb0 : b' ≠ 0) (hblt : b' < inodeRef.blocksCnt) (hbbase : b' ∉ base)
    (hspent : Spent base s s₁ {b'}) (hbytes : s₁.bytes = s.bytes)
    (hE : ∀ err s', Holding inodeRef g base s' ((Ctx.cons f c).plug u) → Spent base s s' 0 →
      Troubled inodeRef s s' err → E err s')
    (hK : ∀ k s', UpperAt inodeRef base s s' u mid b' k →
      wp (K k) Q (fun err s' => WritesSucceed inodeRef → E err s') s') :
    wp (do
      (transBlockGetNoread inodeRef b').orElse
        (abandonNewBlock inodeRef (blockSet inodeRef sourceBlock) b')
      clear inodeRef (.block b') 0 inodeRef.blockSize
      fillNewNode inodeRef b'
        ⟨ext4ExtentMagic, u16 (node.header.entriesCount - mid), u16 (capacity inodeRef),
          node.header.depth, 0⟩
        (.block sourceBlock) mid (node.header.entriesCount - mid)
      let firstRight ← loadKey inodeRef (.block b') 0
      (blockSet inodeRef sourceBlock).orElse
        (abandonNewBlock inodeRef (blockSet inodeRef b') b')
      (setExtentBlockChecksum inodeRef (.block b') false).orElse
        (abandonNewBlock inodeRef (blockSet inodeRef b') b')
      (nodeBlockPut inodeRef b').orElse (freeNewMetadataBlock inodeRef b')
      K firstRight) Q (fun err s' => WritesSucceed inodeRef → E err s') s₁ := by
  subst hsource
  set n := node.header.entriesCount with hn
  have hacc : Acceptable inodeRef s.bytes d u.addr := hold.ok.acceptable hold.rep rfl
  have hu := ((Ctx.all_plug _ u).mp hold.rep).1
  have hbt := hold.fresh hb0 hbbase
  have hplace : Place.of b' = .block b' := Place.of_ne_zero hb0
  have hcap := inodeRef.capacity_ge
  have hcap' := inodeRef.capacity_le
  have hub : u.addr ≠ b' := by
    rintro rfl
    rw [Ctx.addrs_plug, Multiset.mem_add] at hbt
    exact hbt (Or.inr (SepTree.addr_mem_addrs u))
  rw [wp_bind, wp_orElse]
  refine wp_mono wp_transBlockGetNoread_reads (fun _ s₂ h₂ => ?_) fun err s₂ h₂ => ?_
  swap
  · -- the new block cannot be obtained
    refine wp_abandonNewBlock fun s₃ h₃ _ => ?_
    obtain ⟨hback, hspent₃⟩ := hold.unused ((hspent.quiet h₂.1.quiet).quiet h₃.quiet)
      ((h₃.bytes.trans h₂.1.bytes).trans hbytes)
    exact hE _ _ hback hspent₃ (((h₂.2.earlier hspent.suffix).mono h₃.suffix).mono (s₃.suffix_log _))
  rw [wp_bind, wp_clear]
  refine ⟨by show 0 + inodeRef.blockSize ≤ inodeRef.blockSize; omega, ?_⟩
  set s₃ := s₂.setBytes (.block b') ((s₂.bytes (.block b')).zero 0 inodeRef.blockSize) with hs₃
  have hslots₃ : s₃.bytes.slots (.block node.pblockOfNode) = s.bytes.slots (Place.of u.addr) := by
    have hne : Place.block node.pblockOfNode ≠ .block b' := by
      rw [hc.pblockOfNode]
      exact fun heq => hub (Place.block.inj heq)
    unfold Disk.slots
    rw [hs₃, St.bytes_setBytes, Disk.set_ne _ _ hne, h₂.bytes, hbytes, ← hc.pblockOfNode,
      Place.of_ne_zero hu0]
  have hlen : (s.bytes.slots (Place.of u.addr)).length = n := by
    rw [Disk.length_slots, ← hc.header]
  have hncap : n ≤ capacity inodeRef := by
    have hmax := hacc.headerOk.max
    have hcount := hacc.headerOk.count
    rw [← hc.header] at hcount hmax
    rw [hc.pblockOfNode] at hu0
    rw [Place.of_ne_zero hu0] at hmax
    exact Nat.le_trans hcount hmax
  have hdepth : node.header.depth = d := by rw [hc.header, hacc.depth]
  have hd5 : d ≤ 5 := hacc.depth ▸ hacc.headerOk.depth
  rw [u16_of_lt (show n - mid < 65536 by omega), u16_of_lt (show capacity inodeRef < 65536 by omega),
    hdepth]
  rw [wp_bind]
  refine wp_mono (wp_fillNewNode (fits_new (by omega) hd5)
    (Disk.records_of_slots hslots₃ (by rw [hlen]; omega)) rfl
    (inodeRef.fits_of_le (show mid + (n - mid) ≤ capacity inodeRef by omega))
    (inodeRef.fits_of_le (show n - mid ≤ capacity inodeRef by omega))) ?_ fun _ _ hf => hf.elim
  intro _ s₄ h₄
  have hkeys : (s.bytes.slots (Place.of u.addr)).map (·.firstBlock) = u.keys :=
    Lists.keys hu.self.entries
  obtain ⟨k, hk⟩ : ∃ k, (u.keys.drop mid).head? = some k := by
    have hlt : mid < u.keys.length := by rw [← hkeys, List.length_map, hlen]; exact hmid
    exact ⟨_, by rw [List.head?_drop, List.getElem?_eq_getElem hlt]⟩
  have hkey₄ : s₄.bytes.key (.block b') 0 = k := by
    refine Disk.key_zero ?_
    rw [h₄.slots, List.map_drop, hkeys, hk]
  rw [wp_bind, wp_loadKey (fits_one b'), hkey₄, wp_bind, wp_orElse]
  refine wp_blockSet_ok (fun hn _ _ => wp_abandonNewBlock fun _ _ hw => absurd hw hn)
    fun s₅ h₅ => ?_
  obtain ⟨s₆, h₆, hstored⟩ := h₄.reads h₅
  have hhead : HeaderOk inodeRef (.block b') ⟨ext4ExtentMagic, n - mid, capacity inodeRef, d, 0⟩ :=
    headerOk_new (by omega) hd5
  rw [wp_bind, wp_orElse]
  refine wp_mono (wp_setChecksum_filled hstored hhead) ?_ fun _ _ hf => hf.elim
  rintro _ s₇ ⟨dat, rfl, hdat, hslots, hcsum⟩
  rw [wp_bind, wp_orElse]
  refine wp_nodeBlockPut_ok (fun hn _ _ => wp_freeNewMetadataBlock fun hw => absurd hw hn)
    fun s₈ h₈ => hK k s₈ ?_
  have hnew : Rewrote inodeRef s₁ s₈ b' (headerLoad dat) (slots dat) := by
    refine rewrote_of_filled hb0 (Quiet.trans (show Quiet s₁ s₃ from h₂.quiet) h₆.quiet)
      (fun p hp => ?_) hcsum h₈
    rw [h₆.bytes, hs₃, St.bytes_setBytes, Disk.set_ne _ _ hp, h₂.bytes]
  rw [hdat, hslots] at hnew
  exact ⟨hb0, hblt, hbbase, hk, s₁, _, hspent, hbytes, hplace ▸ hhead, rfl, rfl, hnew⟩

theorem wp_splitFullNode (hcnt : inodeRef.blocksCnt ≤ pblockLimit)
    (hold : Holding inodeRef g base s ((Ctx.cons f c).plug u))
    (hnode : path.path[c.length + 1]? = some node) (hc : CopyOf s.bytes node u.addr)
    (hparent : path.path[c.length]? = some parent) (hat : NodeAt s.bytes parent f) :
    wp (splitFullNode inodeRef path (c.length + 1))
      (fun _ s' => ∃ b' k, (u.keys.drop (node.header.entriesCount / 2)).head? = some k ∧
        2 ≤ node.header.entriesCount ∧
        Holding inodeRef g (b' ::ₘ base) s'
          (c.plug (f.split u (node.header.entriesCount / 2) b' k)) ∧ Spent base s s' {b'} ∧
        s'.bytes.rootMax = s.bytes.rootMax)
      (fun err s' => WritesSucceed inodeRef →
        (Holding inodeRef g base s' ((Ctx.cons f c).plug u) ∧ Spent base s s' 0 ∧
          (SplitReady node parent f u → Troubled inodeRef s s' err)) ∨
        ReadFailed inodeRef s s' .splitShorten err ∧
          Torn inodeRef g base s s' ((Ctx.cons f c).plug u)) s := by
  have stay {s' : St} {W R E : Prop} (hreads : Reads s s') (hr : R) (_ : W) :
      (Holding inodeRef g base s' ((Ctx.cons f c).plug u) ∧ Spent base s s' 0 ∧ R) ∨ E :=
    Or.inl ⟨hold.reads hreads, .of_quiet base hreads.quiet, hr⟩
  have hacc : Acceptable inodeRef s.bytes d u.addr := hold.ok.acceptable hold.rep rfl
  unfold splitFullNode
  rw [wp_bind, wp_node]
  refine ⟨node, hnode, ?_⟩
  dsimp only
  rw [wp_ite]
  constructor
  · intro hguard
    refine stay (.refl s) fun hready => absurd hguard ?_
    rw [not_or, not_or, not_or, not_not]
    exact ⟨Nat.succ_ne_zero _, hready.external, Nat.not_lt.mpr hready.two, hready.full⟩
  intro hguard
  rw [not_or, not_or, not_or] at hguard
  obtain ⟨-, hu0, htwo, -⟩ := hguard
  rw [wp_bind, Nat.add_sub_cancel, wp_node]
  refine ⟨parent, hparent, ?_⟩
  rw [wp_ite]
  refine ⟨fun hfull => stay (.refl s) fun hready => absurd hready.room (Nat.not_lt.mpr hfull),
    fun hroom => ?_⟩
  rw [wp_bind]
  refine wp_mono (wp_nodeBlockGet_reads _ _) (fun _ s₀ h₀ => ?_)
    fun err s₁ h₁ => stay h₁.1 fun _ => h₁.2.troubled
  rw [wp_bind, wp_onError]
  refine wp_recheckNode (hc.congr (by rw [h₀.bytes])) (by rw [← hc.pblockOfNode]; exact hu0)
    (by rw [h₀.bytes]; exact hacc) fun s₁ h₁ => ?_
  replace h₁ := h₀.trans h₁
  rw [wp_bind, wp_onError, wp_ballocAllocBlock]
  refine ⟨fun b' hb' => ?_, fun err _ => ?_⟩
  swap
  · refine wp_blockSet_quiet fun s₂ h₂ _ => Or.inl ?_
    have hspent : Spent base s s₂ 0 := (Spent.after h₁.quiet (.refused base)).quiet h₂.quiet
    exact ⟨hold.kept hspent (h₂.bytes.trans h₁.bytes), hspent,
      fun _ => (Troubled.of_alloc h₁.suffix).mono h₂.suffix⟩
  obtain ⟨hb0, hblt, hbbase⟩ := (hold.reads h₁).handsOut.next hb'
  have hspent : Spent base s (s₁.log (.ballocAllocBlock inodeRef.lwext4.inodeToGoalBlock (.ok b'))) {b'} :=
    .after h₁.quiet (.take hbbase)
  have hbytes : (s₁.log (.ballocAllocBlock inodeRef.lwext4.inodeToGoalBlock (.ok b'))).bytes = s.bytes :=
    h₁.bytes
  refine wp_writeUpper hold hc hu0 rfl (show node.header.entriesCount / 2 < _ by omega)
    hb0 hblt hbbase hspent hbytes (fun err s' hback hspent' htrouble => ?_) fun k s' hup => ?_
  · exact Or.inl ⟨hback, hspent', fun _ => htrouble⟩
  refine wp_mono (wp_linkUpper hcnt hold hc hu0 (by omega) (by omega) hparent hat
    (Nat.lt_of_not_le hroom) hup) ?_ ?_
  · exact fun _ s'' h => ⟨b', k, hup.key, by omega, h⟩
  · intro err s'' h hw
    rcases h hw with ⟨hback, hspent', hreason⟩ | htorn
    · refine Or.inl ⟨hback, hspent', fun hready => hreason fun x hx => ?_⟩
      exact hready.apart k (List.mem_of_mem_drop (List.mem_of_mem_head? hup.key)) x hx
    · exact Or.inr htorn

end Lemmas

end EspLwext4
