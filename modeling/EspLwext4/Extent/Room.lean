import EspLwext4.Extent.Stopping

/-!
# Making room on a path

`ensure_insert_room` changes the shape of the tree once in every round, by a growth or
by a split, and searches again. Each change lowers the `pressure` of the path by one
at least: a growth takes a full root off it, a split a full node, and no more than one
entry is added elsewhere. The pressure of a path of at most six nodes is at most
twelve, and there are fourteen rounds.
-/

namespace EspLwext4

open Prog Bytes Ranged

variable (inodeRef : InodeRef) (g : Grade)

/-! ## The pressure of a path -/

/-- How near a node with `count` of `max` entries is to being full. -/
def load (max count : ℕ) : ℕ := if max ≤ count then 2 else if max = count + 1 then 1 else 0

/-- The load of the nodes on a path, by their entries. All but the root hold `cap`. -/
def pressure (rootMax cap : ℕ) : List ℕ → ℕ
  | [] => 0
  | n :: ns => load rootMax n + (ns.map (load cap)).sum

section Pressure

variable {rootMax cap max n p half : ℕ} {ns l r : List ℕ}

theorem load_le : load max n ≤ 2 := by
  unfold load
  split
  · exact Nat.le_refl 2
  · split <;> omega

theorem load_full (h : max ≤ n) : load max n = 2 := if_pos h

theorem load_room (h : n + 1 < max) : load max n = 0 := by
  unfold load
  rw [if_neg (by omega), if_neg (by omega)]

/-- One entry more. -/
theorem load_succ (h : n < max) : load max (n + 1) ≤ load max n + 1 := by
  rcases Nat.lt_or_ge (n + 1) max with hlt | hge
  · unfold load
    rw [if_neg (Nat.not_le.mpr hlt), if_neg (Nat.not_le.mpr h)]
    split <;> omega
  · have hload : load max n = 1 := by
      unfold load
      rw [if_neg (Nat.not_le.mpr h), if_pos (Nat.le_antisymm hge h)]
    rw [hload]
    exact load_le

theorem sum_load_le : (ns.map (load cap)).sum ≤ 2 * ns.length := by
  induction ns with
  | nil => exact Nat.le_refl 0
  | cons n ns ih =>
      have hload : load cap n ≤ 2 := load_le
      rw [List.map_cons, List.sum_cons, List.length_cons]
      omega

theorem pressure_le : pressure rootMax cap ns ≤ 2 * ns.length := by
  rcases ns with _ | ⟨n, ns⟩
  · exact Nat.zero_le _
  · have hload : load rootMax n ≤ 2 := load_le
    have hsum : (ns.map (load cap)).sum ≤ 2 * ns.length := sum_load_le
    rw [pressure, List.length_cons]
    omega

/-- A full root that moves one level down. -/
theorem pressure_raise (hfull : rootMax ≤ n) (hn : n + 1 < cap) :
    pressure 4 cap (1 :: n :: ns) < pressure rootMax cap (n :: ns) := by
  rw [pressure, pressure, List.map_cons, List.sum_cons, load_full hfull, load_room hn,
    load_room (show 1 + 1 < 4 by decide)]
  omega

/-- A full node that is split. -/
theorem pressure_split (hp : p < if l = [] then rootMax else cap) (hfull : cap ≤ n)
    (hhalf : half + 1 < cap) :
    pressure rootMax cap (l ++ (p + 1) :: half :: r) < pressure rootMax cap (l ++ p :: n :: r) := by
  rcases l with _ | ⟨m, l⟩
  · rw [if_pos rfl] at hp
    have hsucc := load_succ hp
    simp only [List.nil_append, pressure, List.map_cons, List.sum_cons, load_full hfull,
      load_room hhalf]
    omega
  · rw [if_neg (List.cons_ne_nil m l)] at hp
    have hsucc := load_succ hp
    simp only [List.cons_append, pressure, List.map_append, List.map_cons, List.sum_append,
      List.sum_cons, load_full hfull, load_room hhalf]
    omega

end Pressure

/-! ## A tree of another shape -/

/-- `t'` in `s'` has the content of `t` in `s`, and the blocks `own` as further nodes. -/
structure Reshaped (base : Multiset ℕ) (s s' : St) {d d' : ℕ} (t : SepTree Ext4Extent d)
    (own : Multiset ℕ) (t' : SepTree Ext4Extent d') : Prop where
  holding : Holding inodeRef g (own + base) s' t'
  spent : Spent base s s' own
  content : t.SameContent t'
  addrs : t'.addrs = own + t.addrs

/-- The node of a level of the path has room for an entry. -/
def NonFull (path : ExtentSearchPath) (level : ℕ) : Prop :=
  ∃ node, path.path[level]? = some node ∧ node.header.entriesCount < node.header.maxEntriesCount

/-- The root has as many entries as it declares. -/
def RootFull (D : Disk) : Prop := (D.header .root).maxEntriesCount ≤ (D.header .root).entriesCount

/-- `ensure_insert_room` returned `path`. -/
structure RoomMade (base : Multiset ℕ) (s s' : St) {d : ℕ} (t : SepTree Ext4Extent d) (lblock : ℕ)
    (path : ExtentSearchPath) {d' : ℕ} (own : Multiset ℕ) (t' : SepTree Ext4Extent d')
    (c : Ctx Ext4Extent 0 d') (b : ℕ) (es : List Ext4Extent) (leaf : ExtentPathNode) : Prop
    extends Reshaped inodeRef g base s s' t own t',
      Located inodeRef s'.bytes t' lblock path c b es leaf where
  nonFull : ∀ level ≤ path.depth, NonFull path level

/-- `ensure_insert_room` failed, on a whole tree or inside a split. -/
def RoomFailed (base : Multiset ℕ) (s s' : St) {d : ℕ} (t : SepTree Ext4Extent d) (err : Errno) :
    Prop :=
  (∃ (d' : ℕ) (own : Multiset ℕ) (t' : SepTree Ext4Extent d'), Reshaped inodeRef g base s s' t own t' ∧
    (g = .built → Troubled inodeRef s s' err ∨ err = .efbig ∧ 5 ≤ d' ∧ RootFull s'.bytes)) ∨
  ∃ (s₁ : St) (d' : ℕ) (own : Multiset ℕ) (t' : SepTree Ext4Extent d'),
    Reshaped inodeRef g base s s₁ t own t' ∧ ReadFailed inodeRef s₁ s' .splitShorten err ∧
      Torn inodeRef g (own + base) s₁ s' t'

section Lemmas

variable {inodeRef g} {base own own' : Multiset ℕ} {s s₁ s' s'' : St} {d d' d'' e lblock n : ℕ}
variable {t : SepTree Ext4Extent d} {t' : SepTree Ext4Extent d'} {t'' : SepTree Ext4Extent d''}
variable {err : Errno} {path : ExtentSearchPath} {E : Errno → St → Prop}

theorem Reshaped.refl (h : Holding inodeRef g base s t) : Reshaped inodeRef g base s s t 0 t :=
  ⟨by rwa [zero_add], .refl base s, .refl t, (zero_add _).symm⟩

theorem Reshaped.trans (h : Reshaped inodeRef g base s s' t own t')
    (h' : Reshaped inodeRef g (own + base) s' s'' t' own' t'') :
    Reshaped inodeRef g base s s'' t (own' + own) t'' := by
  refine ⟨?_, h.spent.trans h'.spent, h.content.trans h'.content, ?_⟩
  · rw [add_assoc]
    exact h'.holding
  · rw [h'.addrs, h.addrs, add_assoc]

theorem Reshaped.reads (h : Reshaped inodeRef g base s s' t own t') (h' : Reads s' s'') :
    Reshaped inodeRef g base s s'' t own t' :=
  ⟨h.holding.reads h', h.spent.quiet h'.quiet, h.content, h.addrs⟩

theorem RoomFailed.after (h : Reshaped inodeRef g base s s₁ t own t')
    (h' : RoomFailed inodeRef g (own + base) s₁ s' t' err) : RoomFailed inodeRef g base s s' t err := by
  rcases h' with ⟨d₂, own₂, t₂, hre, hreason⟩ | ⟨s₂, d₂, own₂, t₂, hre, hread, htorn⟩
  · refine Or.inl ⟨d₂, own₂ + own, t₂, h.trans hre, fun hg => (hreason hg).imp ?_ id⟩
    exact fun htrouble => htrouble.earlier h.spent.suffix
  · exact Or.inr ⟨s₂, d₂, own₂ + own, t₂, h.trans hre, hread, by rwa [add_assoc]⟩

/-! ## A node ready to be split -/

/-- Every key of a node has an entry at or behind it. -/
theorem SepTree.exists_of_mem_keys {u : SepTree Ext4Extent d} (hsorted : u.marks.Pairwise (· ≤ ·))
    (hbushy : u.Bushy (· ≠ [])) {k : ℕ} (hk : k ∈ u.keys) : ∃ x ∈ u.items, k ≤ first x := by
  cases u with
  | leaf b es =>
      obtain ⟨x, hx, rfl⟩ := List.mem_map.mp hk
      exact ⟨x, hx, Nat.le_refl _⟩
  | node b cs =>
      obtain ⟨c, hc, rfl⟩ := List.mem_map.mp hk
      have hne : c.2.items ≠ [] := Ctx.items_ne_nil_of_bushy ((SepTree.all_node.mp hbushy).2 c hc)
      obtain ⟨x, hx⟩ := List.exists_mem_of_ne_nil _ hne
      have hbounded := (SepTree.bounded_of_sorted hsorted).self
      exact ⟨x, List.mem_flatMap.mpr ⟨c, hc, hx⟩, hbounded.1 c hc x hx⟩

/-- In a tree without empty nodes the keys of a node lie before the keys behind it. -/
theorem TreeOk.apart {f : Frame Ext4Extent d} {c : Ctx Ext4Extent (d + 1) e}
    {u : SepTree Ext4Extent d} (ok : TreeOk inodeRef .built ((Ctx.cons f c).plug u)) :
    ∀ k ∈ u.keys, ∀ x ∈ f.right, k < x.1 := by
  intro k hk x hx
  obtain ⟨-, hbushy, hsorted, hextents⟩ := ok.sub (c := Ctx.cons f c) rfl
  have hbushy : u.Bushy (· ≠ []) := bushy_built.mp (hbushy.resolve_left (by
    have := (Ctx.cons f c).depth_eq
    rw [Ctx.length] at this
    omega))
  obtain ⟨y, hy, hky⟩ := SepTree.exists_of_mem_keys hsorted hbushy hk
  have hpost : x.1 ∈ (Ctx.cons f c).post :=
    List.mem_append_left _ (List.mem_flatMap.mpr ⟨x, hx, by simp⟩)
  have hmarks := ok.sorted
  rw [Ctx.marks_plug, List.pairwise_append] at hmarks
  have hle := hmarks.2.2 (stop y) (List.mem_append_right _ (SepTree.stop_mem_marks hy)) x.1 hpost
  exact Nat.lt_of_le_of_lt hky (Nat.lt_of_lt_of_le (first_lt_stop (hextents y hy)) hle)

variable {f : Frame Ext4Extent d} {c : Ctx Ext4Extent (d + 1) e} {u : SepTree Ext4Extent d}
variable {node parent : ExtentPathNode} {D : Disk} {mid b' k : ℕ}

theorem Ctx.hole_ne_zero (ok : TreeOk inodeRef g ((Ctx.cons f c).plug u)) : u.addr ≠ 0 := by
  refine ok.ne_zero ?_
  have hnodup : (c.plug (.node f.addr (f.left ++ (f.key, u) :: f.right))).addrs.Nodup := ok.nodup
  exact Ctx.child_ne_root hnodup (k := (f.key, u)) (by simp)

/-- A full node below one with room. -/
theorem splitReady (hold : Holding inodeRef .built base s ((Ctx.cons f c).plug u))
    (hcopy : CopyOf s.bytes node u.addr)
    (hfull : node.header.maxEntriesCount ≤ node.header.entriesCount)
    (hroom : parent.header.entriesCount < parent.header.maxEntriesCount) :
    SplitReady node parent f u := by
  have hrep : RepAt inodeRef .built s.bytes u := ((Ctx.all_plug _ u).mp hold.rep).1.self
  have hne := Ctx.hole_ne_zero hold.ok
  have hmax := hrep.declares rfl hne
  have hcount := hrep.standing.headerOk.count
  have hcap := inodeRef.capacity_ge
  rw [← hcopy.header] at hmax hcount
  refine ⟨by rwa [hcopy.pblockOfNode], by omega, by omega, hroom, hold.ok.apart⟩

/-- The root's entries, when the root is the node above the hole. -/
theorem room_of_context (hold : Holding inodeRef .built base s ((Ctx.cons f c).plug u))
    (hroom : (s.bytes.header (Place.of f.addr)).entriesCount <
      (s.bytes.header (Place.of f.addr)).maxEntriesCount) :
    f.left.length + f.right.length + 1 <
      if c.counts = [] then s.bytes.rootMax else capacity inodeRef := by
  have hfill : RepAt inodeRef .built s.bytes (f.fill u) := ((Ctx.all_plug _ u).mp hold.rep).2.1
  have hcount : (s.bytes.header (Place.of f.addr)).entriesCount = (f.fill u).keys.length :=
    hfill.entries.count
  have hlen : (f.fill u).keys.length = f.left.length + f.right.length + 1 := by
    simp [Frame.fill, Nat.add_assoc]
  rw [hcount, hlen] at hroom
  refine Nat.lt_of_lt_of_eq hroom ?_
  cases c with
  | nil =>
      have haddr : f.addr = 0 := hold.ok.addr
      rw [haddr, Place.of_zero]
      rfl
  | cons f' c =>
      rw [if_neg (by simp [Ctx.counts])]
      exact hfill.declares rfl (Ctx.hole_ne_zero (f := f') (c := c) (u := f.fill u) hold.ok)

/-- A split lowers the pressure. -/
theorem pressure_of_split (hold : Holding inodeRef .built base s ((Ctx.cons f c).plug u))
    (hchosen : (Ctx.cons f c).Chosen lblock) (hcopy : CopyOf s.bytes node u.addr)
    (hat : NodeAt s.bytes parent f)
    (hfull : node.header.maxEntriesCount ≤ node.header.entriesCount)
    (hroom : parent.header.entriesCount < parent.header.maxEntriesCount)
    (hk : (u.keys.drop (node.header.entriesCount / 2)).head? = some k)
    (ok : TreeOk inodeRef .built (c.plug (f.split u (node.header.entriesCount / 2) b' k))) :
    pressure s.bytes.rootMax (capacity inodeRef)
        ((c.plug (f.split u (node.header.entriesCount / 2) b' k)).route lblock) <
      pressure s.bytes.rootMax (capacity inodeRef) (((Ctx.cons f c).plug u).route lblock) := by
  have hrep : RepAt inodeRef .built s.bytes u := ((Ctx.all_plug _ u).mp hold.rep).1.self
  have hcount := hrep.entries.count
  have hle := hrep.standing.headerOk.count
  have hmax := hrep.declares rfl (Ctx.hole_ne_zero hold.ok)
  have hcap := inodeRef.capacity_ge
  rw [hat.header] at hroom
  rw [← hcopy.header] at hcount hle hmax
  rw [hcount] at hk ok hfull hle ⊢
  obtain ⟨hleft, hright, hc⟩ := hchosen
  have hfit : (c.plug (f.fill u)).All (FitAt inodeRef) := hold.ok.fit
  have hfill := (Ctx.all_plug c _).mp hfit
  have hsplit := (Ctx.all_plug c _).mp ok.fit
  have hsorted {t : SepTree Ext4Extent (d + 1)} (h : c.Around (FitAt inodeRef) t) :
      c.Around SepTree.SortedAt t := Ctx.around_imp h fun _ _ hu => hu.sortedAt
  obtain ⟨half, hhalf, hroute⟩ := Frame.route_split hsplit.1.self.sortedAt
    (((Ctx.all_plug _ u).mp hold.ok.fit).1.self.sortedAt) (by omega) hk hleft hright
  rw [Ctx.route_plug hc (hsorted hsplit.2), hroute, Ctx.plug_cons,
    Ctx.route_plug hc (hsorted hfill.2), Frame.route_fill hfill.1.self.sortedAt hleft hright,
    u.route_eq]
  exact pressure_split (room_of_context hold hroom) (by omega) (by omega)

/-- A growth lowers the pressure. -/
theorem pressure_of_growth (hold : Holding inodeRef .built base s t) (hfull : RootFull s.bytes) :
    pressure 4 (capacity inodeRef) ((t.raise b' k).route lblock) <
      pressure s.bytes.rootMax (capacity inodeRef) (t.route lblock) := by
  have hroot : RepAt inodeRef .built s.bytes t := hold.rep.self
  have hcount := hroot.entries.count
  have hok := hroot.standing.headerOk
  rw [hold.ok.addr, Place.of_zero] at hcount hok
  have hmax : (s.bytes.header .root).maxEntriesCount ≤ 4 := hok.max
  have hle := hok.count
  have hcap := inodeRef.capacity_ge
  rw [SepTree.route_raise, t.route_eq]
  refine pressure_raise ?_ (by omega)
  unfold Disk.rootMax
  unfold RootFull at hfull
  omega

/-! ## The loop -/

theorem Follows.first {ns : List ExtentPathNode} : ∀ {d : ℕ} {c₀ : Ctx Ext4Extent d e}
    {u₀ : SepTree Ext4Extent d} {node₀ : ExtentPathNode}, Follows D ns c₀ →
      ns[c₀.length]? = some node₀ → CopyOf D node₀ u₀.addr →
      ∃ root, ns[0]? = some root ∧ CopyOf D root (c₀.plug u₀).addr := by
  intro d c₀
  induction c₀ with
  | nil => exact fun _ hnode hcopy => ⟨_, hnode, hcopy⟩
  | cons f c ih =>
      rintro u₀ node₀ ⟨⟨parent, hparent, hat⟩, hc⟩ - -
      exact ih hc hparent hat.copyOf

/-- The first node of a path was copied from the root. -/
theorem Located.rootNode {c₀ : Ctx Ext4Extent 0 d} {b : ℕ} {es : List Ext4Extent}
    {leaf : ExtentPathNode} (h : Located inodeRef D t lblock path c₀ b es leaf) :
    ∃ root, path.path[0]? = some root ∧ CopyOf D root t.addr := by
  have hleaf : path.path[c₀.length]? = some leaf := h.depth ▸ h.leafNode
  rw [← h.plug]
  exact h.along.first hleaf ⟨h.leafAt.pblockOfNode, h.leafAt.header⟩

theorem wp_growIndepth_reshaped
    (hcnt : inodeRef.blocksCnt ≤ pblockLimit) (hold : Holding inodeRef g base s t)
    (hfull : RootFull s.bytes) :
    wp (growIndepth inodeRef)
      (fun _ s' => ∃ b k, Reshaped inodeRef g base s s' t {b} (t.raise b k) ∧ s'.bytes.rootMax = 4)
      (fun err s' => WritesSucceed inodeRef → RoomFailed inodeRef g base s s' t err) s := by
  have hroot : RepAt inodeRef g s.bytes t := hold.rep.self
  have hcount := hroot.entries.count
  have hok := hroot.standing.headerOk
  rw [hold.ok.addr, Place.of_zero] at hcount hok
  have hpos := hok.pos
  have hkeys : t.keys ≠ [] := fun h0 => by
    rw [h0] at hcount
    unfold RootFull at hfull
    rw [hcount] at hfull
    exact absurd hfull (Nat.not_le.mpr hpos)
  obtain ⟨k, ks, hk⟩ := List.exists_cons_of_ne_nil hkeys
  refine wp_mono (wp_growIndepth (k := k) hcnt hold (by rw [hk]; rfl)) ?_ ?_
  · rintro _ s' ⟨b, hgrown, hspent, hmax⟩
    refine ⟨b, k, ⟨?_, hspent, SepTree.sameContent_raise (by rw [hk]; rfl),
      SepTree.addrs_raise⟩, hmax⟩
    rwa [Multiset.singleton_add]
  · intro err s' h hw
    obtain ⟨hback, hspent, hreason⟩ := h hw
    refine Or.inl ⟨d, 0, t, ⟨by rwa [zero_add], hspent, .refl t,
      (zero_add _).symm⟩, fun _ => ?_⟩
    rcases hreason with ⟨rfl, hdepth, hbytes⟩ | htrouble
    · exact Or.inr ⟨rfl, hdepth, by rwa [hbytes]⟩
    · exact Or.inl htrouble

theorem wp_splitFullNode_reshaped
    (hcnt : inodeRef.blocksCnt ≤ pblockLimit)
    (hold : Holding inodeRef g base s ((Ctx.cons f c).plug u))
    (hnode : path.path[c.length + 1]? = some node) (hcopy : CopyOf s.bytes node u.addr)
    (hparent : path.path[c.length]? = some parent) (hat : NodeAt s.bytes parent f)
    (hfull : node.header.maxEntriesCount ≤ node.header.entriesCount)
    (hroom : parent.header.entriesCount < parent.header.maxEntriesCount) :
    wp (splitFullNode inodeRef path (c.length + 1))
      (fun _ s' => ∃ b' k, (u.keys.drop (node.header.entriesCount / 2)).head? = some k ∧
        Reshaped inodeRef g base s s' ((Ctx.cons f c).plug u) {b'}
          (c.plug (f.split u (node.header.entriesCount / 2) b' k)) ∧
        s'.bytes.rootMax = s.bytes.rootMax)
      (fun err s' => WritesSucceed inodeRef →
        RoomFailed inodeRef g base s s' ((Ctx.cons f c).plug u) err) s := by
  refine wp_mono (wp_splitFullNode hcnt hold hnode hcopy hparent hat) ?_ ?_
  · rintro _ s' ⟨b', k, hk, htwo, hsplit, hspent, hmax⟩
    have hsorted := ((Ctx.all_plug c _).mp hsplit.ok.fit).1.self.sortedAt
    have hu := ((Ctx.all_plug _ u).mp hold.ok.fit).1.self.sortedAt
    refine ⟨b', k, hk, ⟨?_, hspent, Ctx.sameContent_split hsorted hu (by omega) hk, ?_⟩, hmax⟩
    · rwa [Multiset.singleton_add]
    · rw [Ctx.plug_cons, Ctx.addrs_plug, Ctx.addrs_plug, Frame.addrs_split, Multiset.add_cons,
        Multiset.singleton_add]
  · intro err s' h hw
    rcases h hw with ⟨hback, hspent, hreason⟩ | ⟨hread, htorn⟩
    · refine Or.inl ⟨e, 0, _, ⟨by rwa [zero_add], hspent, .refl _,
        (zero_add _).symm⟩, ?_⟩
      rintro rfl
      exact Or.inl (hreason (splitReady hold hcopy hfull hroom))
    · exact Or.inr ⟨s, e, 0, _, .refl hold, hread, by rwa [zero_add]⟩

/-- The rounds of `ensure_insert_room`, by induction on how many are left: a tree that
the code built has less pressure on the path than rounds, so they do not run out. -/
theorem wp_ensureInsertRoomLoop
    (hcnt : inodeRef.blocksCnt ≤ pblockLimit) (attempts : ℕ) :
    ∀ {d : ℕ} {t : SepTree Ext4Extent d} {base : Multiset ℕ} {s : St},
      Holding inodeRef g base s t →
      (g = .built → pressure s.bytes.rootMax (capacity inodeRef) (t.route lblock) < attempts) →
      wp (ensureInsertRoomLoop inodeRef lblock attempts)
        (fun path s' => ∃ (d' : ℕ) (own : Multiset ℕ) (t' : SepTree Ext4Extent d')
          (c : Ctx Ext4Extent 0 d') (b : ℕ) (es : List Ext4Extent) (leaf : ExtentPathNode),
          RoomMade inodeRef g base s s' t lblock path own t' c b es leaf)
        (fun err s' => WritesSucceed inodeRef → RoomFailed inodeRef g base s s' t err) s := by
  induction attempts with
  | zero =>
      intro d t base s hold hpressure
      refine fun _ => Or.inl ⟨d, 0, t, .refl hold, fun hg => ?_⟩
      exact absurd (hpressure hg) (Nat.not_lt_zero _)
  | succ attempts ih =>
      intro d t base s hold hpressure
      -- a round that changed the shape leaves the rest to those behind it
      have again {d' : ℕ} {t' : SepTree Ext4Extent d'} {own : Multiset ℕ} {s' : St}
          (hre : Reshaped inodeRef g base s s' t own t') (hlt : g = .built →
            pressure s'.bytes.rootMax (capacity inodeRef) (t'.route lblock) <
              pressure s.bytes.rootMax (capacity inodeRef) (t.route lblock)) :
          wp (ensureInsertRoomLoop inodeRef lblock attempts)
            (fun path s' => ∃ (d' : ℕ) (own : Multiset ℕ) (t' : SepTree Ext4Extent d')
              (c : Ctx Ext4Extent 0 d') (b : ℕ) (es : List Ext4Extent) (leaf : ExtentPathNode),
              RoomMade inodeRef g base s s' t lblock path own t' c b es leaf)
            (fun err s' => WritesSucceed inodeRef → RoomFailed inodeRef g base s s' t err) s' := by
        refine wp_mono (ih hre.holding fun hg => ?_) ?_ fun _ _ h hw => (h hw).after hre
        · have := hlt hg
          have := hpressure hg
          omega
        · rintro path s'' ⟨d₂, own₂, t₂, c, b, es, leaf, hmade⟩
          exact ⟨d₂, own₂ + own, t₂, c, b, es, leaf, hre.trans hmade.toReshaped, hmade.toLocated,
            hmade.nonFull⟩
      unfold ensureInsertRoomLoop
      rw [wp_bind]
      refine wp_mono (wp_findExtent_located hold.rep hold.ok) ?_ ?_
      swap
      · rintro err s₁ ⟨hreads, hfail⟩ -
        exact Or.inl ⟨d, 0, t, (Reshaped.refl hold).reads hreads, fun _ => Or.inl hfail.troubled⟩
      rintro path s₁ ⟨hreads, c, b, es, leaf, hloc⟩
      rw [← hreads.bytes] at hloc
      have hold₁ := hold.reads hreads
      have hre₁ := (Reshaped.refl hold).reads hreads
      obtain ⟨root, hrootNode, hrootCopy⟩ := hloc.rootNode
      rw [hold.ok.addr] at hrootCopy
      have hroot : root.header = s₁.bytes.header .root := hrootCopy.header
      rw [wp_bind, wp_node]
      refine ⟨root, hrootNode, ?_⟩
      rw [wp_ite]
      constructor
      · intro hfull
        rw [hroot] at hfull
        rw [wp_bind]
        refine wp_mono (wp_growIndepth_reshaped hcnt hold₁ hfull) ?_ ?_
        · rintro _ s₂ ⟨b', k, hre, hmax⟩
          have hre₂ := ((Reshaped.refl hold).reads hreads).trans (by rwa [zero_add])
          refine again hre₂ fun hg => ?_
          subst hg
          rw [hmax, ← hreads.bytes]
          exact pressure_of_growth hold₁ hfull
        · intro err s₂ hfail hw
          have hroom := hfail hw
          exact RoomFailed.after hre₁ (by rwa [zero_add])
      intro hroom
      rw [wp_bind]
      refine wp_mono (wp_firstFullLevel (E := fun _ _ => False) hloc.sane path.depth 1 (by omega)) ?_
        fun _ _ h => h.elim
      have hfirst {level : ℕ} {node : ExtentPathNode} (hnode : path.path[level]? = some node)
          (h : 1 ≤ level → node.header.entriesCount < node.header.maxEntriesCount) :
          node.header.entriesCount < node.header.maxEntriesCount := by
        rcases Nat.eq_zero_or_pos level with rfl | h0
        · rw [hrootNode] at hnode
          obtain rfl := Option.some.inj hnode
          exact Nat.lt_of_not_le hroom
        · exact h h0
      rintro (_ | level) s₂ ⟨rfl, hlevel⟩
      · refine ⟨d, 0, t, c, b, es, leaf, hre₁, hloc, fun level hle => ?_⟩
        have hlt : level < path.path.length := by rw [hloc.sane.length]; omega
        have hnode := List.getElem?_eq_getElem hlt
        exact ⟨_, hnode, hfirst hnode fun h1 => hlevel.none rfl level h1 hle _ hnode⟩
      · obtain ⟨h1, hle, node, hnode, hfull⟩ := hlevel.some level rfl
        obtain ⟨level, rfl⟩ : ∃ l, level = l + 1 := ⟨level - 1, by omega⟩
        obtain ⟨d', f, c', u, parent, node', rfl, rfl, hchosen, hparent, hat, hnode', hcopy⟩ :=
          hloc.level (Nat.lt_of_succ_le hle)
        obtain rfl : node = node' := Option.some.inj (hnode.symm.trans hnode')
        have hpar := hfirst hparent fun h1 =>
          hlevel.before _ rfl c'.length h1 (Nat.lt_succ_self _) _ hparent
        rw [wp_bind]
        refine wp_mono (wp_splitFullNode_reshaped hcnt hold₁ hnode hcopy hparent hat hfull hpar)
          ?_ ?_
        · rintro _ s₃ ⟨b', k, hk, hre, hmax⟩
          refine again (hre₁.trans (by rwa [zero_add])) fun hg => ?_
          subst hg
          rw [hmax, ← hreads.bytes]
          exact pressure_of_split hold₁ hchosen hcopy hat hfull hpar hk hre.holding.ok
        · intro err s₃ hfail hw
          have hroom := hfail hw
          exact RoomFailed.after hre₁ (by rwa [zero_add])

/-- Every path is short enough for the rounds there are. -/
theorem wp_ensureInsertRoom
    (hcnt : inodeRef.blocksCnt ≤ pblockLimit) (hold : Holding inodeRef g base s t) :
    wp (ensureInsertRoom inodeRef lblock)
      (fun path s' => ∃ (d' : ℕ) (own : Multiset ℕ) (t' : SepTree Ext4Extent d')
        (c : Ctx Ext4Extent 0 d') (b : ℕ) (es : List Ext4Extent) (leaf : ExtentPathNode),
        RoomMade inodeRef g base s s' t lblock path own t' c b es leaf)
      (fun err s' => WritesSucceed inodeRef → RoomFailed inodeRef g base s s' t err) s := by
  refine wp_ensureInsertRoomLoop hcnt _ hold fun _ => ?_
  have hdepth := hold.rep.self.standing.headerOk.depth
  rw [hold.rep.self.standing.depth] at hdepth
  have hlen := t.length_route_le (v := lblock)
  have hle : pressure s.bytes.rootMax (capacity inodeRef) (t.route lblock) ≤
      2 * (t.route lblock).length := pressure_le
  unfold ext4ExtentMaxDepth at hdepth ⊢
  omega

theorem Reshaped.coherent (h : Reshaped inodeRef .built base s s' t own t') :
    Coherent inodeRef s'.bytes := coherent_of_treeOk h.holding.rep h.holding.ok

theorem Reshaped.items_root (h : Reshaped inodeRef g base s s' t own t') :
    s'.bytes.root.items = t.items :=
  (h.holding.rep.items_root h.holding.ok.addr).trans h.content.items

end Lemmas

/-! ## On a well-formed tree -/

/-- No call into the block layer fails. -/
def IoSucceeds : Prop := ∀ c tr, inodeRef.lwext4.io c tr = none

/-- Every allocation between `s` and `s'` was answered with a block. -/
def AllocationsSucceed (s s' : St) : Prop := ∀ err, ¬ Refused s s' err

/-- In `s'` the tree is well formed, with the extents it has in `s`. -/
structure Intact (s s' : St) : Prop where
  wellFormed : WellFormed inodeRef s'.bytes
  items : s'.bytes.root.items = s.bytes.root.items
  mapping : s'.bytes.mapping = s.bytes.mapping

section WellFormed

variable {inodeRef} {base own : Multiset ℕ} {s s' : St} {d : ℕ} {err : Errno} {lblock : ℕ}

theorem IoSucceeds.writes (h : IoSucceeds inodeRef) : WritesSucceed inodeRef :=
  ⟨fun c tr _ => h c tr⟩

theorem IoSucceeds.not_failed (h : IoSucceeds inodeRef) : ¬ IoFailed inodeRef s s' err := by
  rintro ⟨c, tr, -, hfail, -⟩
  rw [h] at hfail
  cases hfail

theorem Reshaped.intact {t' : SepTree Ext4Extent d}
    (h : Reshaped inodeRef .built base s s' s.bytes.root own t')
    (hs : WellFormed inodeRef s.bytes) : Intact inodeRef s s' := by
  refine ⟨h.coherent.wellFormed ?_, h.items_root, ?_⟩
  · rw [h.items_root]
    exact fun e he => (hs.extents e he).stop_le
  funext lblock
  unfold Disk.mapping
  rw [h.items_root]

/-- A path to a leaf of the tree is one in the tree below the root. -/
theorem RoomMade.located {t' : SepTree Ext4Extent d} {path : ExtentSearchPath}
    {c : Ctx Ext4Extent 0 d} {b : ℕ} {es : List Ext4Extent} {leaf : ExtentPathNode}
    (h : RoomMade inodeRef .built base s s' s.bytes.root lblock path own t' c b es leaf) :
    ∃ c' b' es' leaf', Located inodeRef s'.bytes s'.bytes.root lblock path c' b' es' leaf' := by
  obtain ⟨rfl, heq⟩ := h.holding.rep.eq_root h.holding.ok.addr
  dsimp only at heq
  exact ⟨c, b, es, leaf, heq ▸ h.toLocated⟩

end WellFormed

/-- **The rounds suffice.** On a well-formed tree, where no call of the block layer fails and
the allocator hands out only free blocks of the volume: `ensure_insert_room` returns the path
of a search on which no node is full. When no allocation was refused, its only error is
`EFBIG`, from a full root of depth 5. The tree stays well formed and keeps its extents. -/
theorem insert_room_ensured (inodeRef : InodeRef) (s : St) (firstBlock : UInt32)
    (hio : IoSucceeds inodeRef) (hcnt : inodeRef.blocksCnt ≤ pblockLimit)
    (h : WellFormed inodeRef s.bytes) (hout : HandsOut inodeRef s.bytes.root.below s.trace) :
    wp (ensureInsertRoom inodeRef firstBlock.toNat)
      (fun path s' => Intact inodeRef s s' ∧
        (∃ c b es leaf, Located inodeRef s'.bytes s'.bytes.root firstBlock.toNat path c b es leaf) ∧
        ∀ level ≤ path.depth, NonFull path level)
      (fun err s' => Intact inodeRef s s' ∧ (AllocationsSucceed s s' →
        err = .efbig ∧ s'.bytes.rootDepth = 5 ∧ RootFull s'.bytes)) s := by
  have hold : Holding inodeRef .built s.bytes.root.below s s.bytes.root :=
    ⟨h.rep, h.treeOk, fun _ ha => ha, hout⟩
  refine wp_mono (wp_ensureInsertRoom hcnt hold) ?_ ?_
  · rintro path s' ⟨d', own, t', c, b, es, leaf, hmade⟩
    exact ⟨hmade.toReshaped.intact h, hmade.located, hmade.nonFull⟩
  · intro err s' hfailed
    rcases hfailed hio.writes with ⟨d', own, t', hre, hreason⟩ | ⟨s₁, d', own, t', -, hread, -⟩
    · refine ⟨hre.intact h, fun hsucceed => ?_⟩
      rcases hreason rfl with (hfail | hrefused) | ⟨rfl, hdepth, hfull⟩
      · exact absurd hfail hio.not_failed
      · exact absurd hrefused (hsucceed err)
      · refine ⟨rfl, ?_, hfull⟩
        have hroot := hre.coherent.rep.self.standing
        have hle := hroot.headerOk.depth
        rw [hroot.depth] at hle
        obtain ⟨rfl, -⟩ := hre.holding.rep.eq_root hre.holding.ok.addr
        exact Nat.le_antisymm hle hdepth
    · exact absurd hread.io hio.not_failed

/-- A full root. -/
def fullRootDisk : Disk
  | .root => leafBytes 4 [⟨0, 1, 0, 200⟩, ⟨10, 1, 0, 210⟩, ⟨20, 1, 0, 220⟩, ⟨30, 1, 0, 230⟩]
  | .block _ => fun _ => 0

theorem slots_fullRootDisk : fullRootDisk.slots .root =
    [⟨0, 1, 0, 200⟩, ⟨10, 1, 0, 210⟩, ⟨20, 1, 0, 220⟩, ⟨30, 1, 0, 230⟩] := by decide +kernel

theorem wellFormed_fullRootDisk : WellFormed (sampleVolume oneBlockLwext4) fullRootDisk := by
  have hheader : fullRootDisk.header .root = ⟨ext4ExtentMagic, 4, 4, 0, 0⟩ := by decide +kernel
  refine wellFormed_of_leaf (by rw [hheader]) ?_ ?_ ?_
  · rw [hheader]
    exact ⟨rfl, by decide, by decide, by decide, Nat.le_refl 4⟩
  · rw [slots_fullRootDisk]
    decide
  · rw [slots_fullRootDisk]
    intro e he
    simp only [List.mem_cons, List.not_mem_nil, or_false] at he
    rcases he with rfl | rfl | rfl | rfl
    all_goals exact ⟨by decide, by decide⟩

theorem fresh_fullRootDisk : 300 ∉ fullRootDisk.root.below := by
  have hdepth : fullRootDisk.rootDepth = 0 := by decide +kernel
  unfold Disk.root
  rw [hdepth]
  exact Multiset.notMem_zero 300

attribute [local irreducible] wp

/-- The full root grows, and there is room in the leaf below it. -/
theorem insert_room_ensured_full :
    ∃ path s', ensureInsertRoom (sampleVolume oneBlockLwext4) 7 ⟨fullRootDisk, false, []⟩ =
        .ok path s' ∧ path.depth = 1 ∧
      Intact (sampleVolume oneBlockLwext4) ⟨fullRootDisk, false, []⟩ s' ∧
        (∃ c b es leaf, Located (sampleVolume oneBlockLwext4) s'.bytes s'.bytes.root 7 path c b es
          leaf) ∧ ∀ level ≤ path.depth, NonFull path level := by
  have hdepth : (resultOf (ensureInsertRoom (sampleVolume oneBlockLwext4) 7
      ⟨fullRootDisk, false, []⟩)).map (·.depth) = some 1 := by decide +kernel
  obtain ⟨path, hpath, hdepth⟩ := Option.map_eq_some_iff.mp hdepth
  obtain ⟨s', hrun⟩ := resultOf_eq_some hpath
  have hmade := insert_room_ensured (sampleVolume oneBlockLwext4) ⟨fullRootDisk, false, []⟩ 7
    (fun _ _ => rfl) (by decide) wellFormed_fullRootDisk (handsOut_oneBlock fresh_fullRootDisk)
  have hroom := wp_ok hmade hrun
  exact ⟨path, s', hrun, hdepth, hroom⟩

end EspLwext4
