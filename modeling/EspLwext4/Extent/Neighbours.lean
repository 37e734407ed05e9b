import EspLwext4.Extent.Bounds

/-!
# The extent that follows a path

`find_next_extent` reads the entry behind the cached position, or climbs to the
innermost level with a further entry and goes down on its left edge. Both are
functions of the disk and of the path; the specifications say so for any disk.
-/

namespace EspLwext4

open Prog

variable (inodeRef : InodeRef)

/-- The first extent of the leftmost leaf below block `b`, `depth` levels up. -/
def Disk.leftmostExtent (D : Disk) : (depth b : ℕ) → Ext4Extent
  | 0, b => D.extent (.block b) 0
  | depth + 1, b => D.leftmostExtent depth (indexGetPblock (D.index (.block b) 0))

/-- The innermost of the path nodes `ns` that has an entry behind its position. -/
def turningPoint (ns : List ExtentPathNode) : Option ExtentPathNode :=
  ns.reverse.find? fun n => decide (n.position + 1 < n.header.entriesCount)

/-- The first extent right of the leaf that the path nodes `ns` lead to. -/
def Disk.extentAfter (D : Disk) (ns : List ExtentPathNode) : Option Ext4Extent :=
  (turningPoint ns).map fun n => D.leftmostExtent (n.header.depth - 1)
    (indexGetPblock (D.index n.place (n.position + 1)))

/-- What `leftmost_extent_below` wants of a node. -/
structure LeftmostOk (D : Disk) (d b : ℕ) : Prop where
  headerOk : HeaderOk inodeRef (.block b) (D.header (.block b))
  depth : (D.header (.block b)).depth = d
  csum : CsumOk inodeRef (D (.block b))
  entries : EntriesOk inodeRef D (.block b) (D.header (.block b))
  nonempty : 0 < (D.header (.block b)).entriesCount

/-- All nodes on the left edge below block `b` are as `leftmost_extent_below`
wants them. -/
def EdgeOk (D : Disk) : (d b : ℕ) → Prop
  | 0, b => LeftmostOk inodeRef D 0 b
  | d + 1, b => LeftmostOk inodeRef D (d + 1) b ∧
      EdgeOk D d (indexGetPblock (D.index (.block b) 0))

/-- The call obtains or releases a block. -/
def IoCall.Accesses : IoCall → Prop
  | .transBlockGet _ _ => True
  | .blockSet _ => True
  | _ => False

/-- Obtaining or releasing a block failed between `s` and `s'`. -/
def AccessFailed (s s' : St) (e : Errno) : Prop := ∃ c, c.Accesses ∧ CallFailed inodeRef s s' c e

section Rules

variable {inodeRef} {s s₁ : St} {node : ExtentPathNode} {pos b d : ℕ}

theorem AccessFailed.io {e : Errno} (h : AccessFailed inodeRef s s₁ e) : IoFailed inodeRef s s₁ e :=
  let ⟨c, _, hc⟩ := h
  ⟨c, hc⟩

theorem ReadFailed.access {site : Site} {e : Errno} (h : ReadFailed inodeRef s s₁ site e) :
    AccessFailed inodeRef s s₁ e :=
  let ⟨b, hc⟩ := h
  ⟨.transBlockGet site b, trivial, hc⟩

/-- Releasing a block and going on. -/
theorem wp_blockSet_reads (b : ℕ) :
    wp (blockSet inodeRef b) (fun _ s' => Reads s s') (fun e s' => Reads s s' ∧
      AccessFailed inodeRef s s' e) s := by
  rw [wp_blockSet]
  exact ⟨fun _ => (Reads.refl s).log rfl,
    fun e he => ⟨(Reads.refl s).log rfl, .blockSet b, trivial, .here List.suffix_rfl he⟩⟩

theorem wp_nodeBlockGet_reads (site : Site) (b : ℕ) :
    wp (nodeBlockGet inodeRef site b) (fun _ s' => Reads s s') (fun e s' => Reads s s' ∧
      ReadFailed inodeRef s s' site e) s := by
  rw [wp_nodeBlockGet]
  exact ⟨fun _ => (Reads.refl s).log rfl,
    fun e he => ⟨(Reads.refl s).log rfl, b, .here List.suffix_rfl he⟩⟩

theorem IoFailed.trans {s₂ : St} {e : Errno} (h : IoFailed inodeRef s₁ s₂ e) (hr : Reads s s₁) :
    IoFailed inodeRef s s₂ e := h.earlier hr.suffix

theorem AccessFailed.trans {s₂ : St} {e : Errno} (h : AccessFailed inodeRef s₁ s₂ e)
    (hr : Reads s s₁) : AccessFailed inodeRef s s₂ e :=
  let ⟨c, hc, hfailed⟩ := h
  ⟨c, hc, hfailed.earlier hr.suffix⟩

theorem wp_nodeGetExtent (hn : NodeSane inodeRef node) (hpos : pos < node.header.entriesCount) :
    wp (nodeGetExtent inodeRef node pos)
      (fun x s' => x = s.bytes.extent node.place pos ∧ Reads s s')
      (fun e s' => Reads s s' ∧ AccessFailed inodeRef s s' e) s := by
  have hfit := hn.fits (n := pos + 1) (Nat.le_trans hpos hn.headerOk.count)
  unfold nodeGetExtent
  rw [wp_ite]
  refine ⟨fun h0 => ?_, fun h0 => ?_⟩
  · have hp : node.place = .root := by rw [ExtentPathNode.place, h0]; rfl
    rw [hp] at hfit ⊢
    exact wp_loadExtent.mpr ⟨hfit, rfl, .refl s⟩
  · have hp : node.place = .block node.pblockOfNode := Place.of_ne_zero h0
    rw [hp] at hfit ⊢
    rw [wp_bind]
    refine wp_mono (wp_nodeBlockGet_reads _ _) (fun _ s₁ hr => ?_) fun e _ h => ⟨h.1, h.2.access⟩
    rw [wp_bind, wp_loadExtent, hr.bytes, wp_bind]
    exact ⟨hfit, wp_mono (wp_blockSet_reads _) (fun _ _ h => ⟨rfl, hr.trans h⟩)
      fun _ _ h => ⟨hr.trans h.1, h.2.trans hr⟩⟩

theorem wp_nodeGetIndex (hn : NodeSane inodeRef node) (hpos : pos < node.header.entriesCount) :
    wp (nodeGetIndex inodeRef node pos)
      (fun x s' => x = s.bytes.index node.place pos ∧ Reads s s')
      (fun e s' => Reads s s' ∧ AccessFailed inodeRef s s' e) s := by
  have hfit := hn.fits (n := pos + 1) (Nat.le_trans hpos hn.headerOk.count)
  unfold nodeGetIndex
  rw [wp_ite]
  refine ⟨fun h0 => ?_, fun h0 => ?_⟩
  · have hp : node.place = .root := by rw [ExtentPathNode.place, h0]; rfl
    rw [hp] at hfit ⊢
    exact wp_loadIndex.mpr ⟨hfit, rfl, .refl s⟩
  · have hp : node.place = .block node.pblockOfNode := Place.of_ne_zero h0
    rw [hp] at hfit ⊢
    rw [wp_bind]
    refine wp_mono (wp_nodeBlockGet_reads _ _) (fun _ s₁ hr => ?_) fun e _ h => ⟨h.1, h.2.access⟩
    rw [wp_bind, wp_loadIndex, hr.bytes, wp_bind]
    exact ⟨hfit, wp_mono (wp_blockSet_reads _) (fun _ _ h => ⟨rfl, hr.trans h⟩)
      fun _ _ h => ⟨hr.trans h.1, h.2.trans hr⟩⟩

/-- The checks on a node of the left edge. -/
theorem wp_acceptNode (b d : ℕ) :
    wp (acceptNode inodeRef b d)
      (fun h s' => Reads s s' ∧ h = s.bytes.header (.block b) ∧
        (0 < h.entriesCount → LeftmostOk inodeRef s.bytes d b))
      (fun _ s' => s' = s ∧ ¬ LeftmostOk inodeRef s.bytes d b) s := by
  unfold acceptNode
  rw [wp_bind, wp_verifyExtentBlockChecksum]
  refine ⟨fun hcsum => ?_, fun hcsum => ⟨rfl, fun h => hcsum h.csum⟩⟩
  rw [wp_bind, wp_loadHeader, wp_bind, show false = (Place.block b).isRoot from rfl,
    wp_validateHeader]
  refine ⟨fun hhead => ?_, fun hhead => ⟨rfl, fun h => hhead h.headerOk⟩⟩
  rw [wp_bind, wp_failIf]
  refine ⟨fun hd => ⟨rfl, fun h => hd h.depth⟩, fun hd => ?_⟩
  rw [wp_bind]
  exact wp_validateEntries_reads hhead.fits
    (fun hent _ h' => ⟨h', rfl, fun h0 => ⟨hhead, not_not.mp hd, hcsum, hent, h0⟩⟩)
    fun hent => ⟨rfl, fun h => hent h.entries⟩

theorem wp_leftmostNode (b d : ℕ) :
    wp (leftmostNode inodeRef b d)
      (fun _ s' => Reads s s' ∧ LeftmostOk inodeRef s.bytes d b)
      (fun e s' => Reads s s' ∧ (AccessFailed inodeRef s s' e ∨ ¬ LeftmostOk inodeRef s.bytes d b))
      s := by
  unfold leftmostNode
  rw [wp_bind]
  refine wp_mono (wp_nodeBlockGet_reads _ _) (fun _ s₁ hr => ?_) fun e _ h =>
    ⟨h.1, Or.inl h.2.access⟩
  rw [wp_bind, wp_onError]
  refine wp_mono (wp_acceptNode b d) ?_ ?_
  · rintro h s₂ ⟨hr₂, rfl, hok⟩
    replace hr₂ := hr.trans hr₂
    rw [hr.bytes] at hok ⊢
    rw [wp_ite]
    refine ⟨fun h0 => ?_, fun h0 => ⟨hr₂, hok (Nat.pos_of_ne_zero h0)⟩⟩
    have bad : ¬ LeftmostOk inodeRef s.bytes d b := fun h => by have := h.nonempty; omega
    rw [wp_bind]
    exact wp_mono (wp_blockSet_reads b) (fun _ _ h => ⟨hr₂.trans h, Or.inr bad⟩)
      fun _ _ h => ⟨hr₂.trans h.1, Or.inr bad⟩
  · rintro e _ ⟨rfl, hbad⟩
    rw [hr.bytes] at hbad
    exact wp_blockSet_quiet fun s' h => ⟨hr.trans h, Or.inr hbad⟩

/-- The walk down the left edge. -/
theorem wp_leftmostExtentBelow : ∀ (d : ℕ) (start : Ext4ExtentIndex) (s : St),
    wp (leftmostExtentBelow inodeRef start d)
      (fun x s' => x = s.bytes.leftmostExtent d (indexGetPblock start) ∧ Reads s s' ∧
        EdgeOk inodeRef s.bytes d (indexGetPblock start))
      (fun e s' => Reads s s' ∧ (AccessFailed inodeRef s s' e ∨
        ¬ EdgeOk inodeRef s.bytes d (indexGetPblock start))) s
  | 0, start, s => by
      unfold leftmostExtentBelow
      dsimp only
      rw [wp_bind]
      refine wp_mono (wp_leftmostNode _ 0) ?_ fun e s' h => h
      rintro _ s₁ ⟨hr, hok⟩
      rw [wp_bind, wp_loadExtent, hr.bytes, wp_bind]
      exact ⟨fits_one _, wp_mono (wp_blockSet_reads _) (fun _ _ h => ⟨rfl, hr.trans h, hok⟩)
        fun _ _ h => ⟨hr.trans h.1, Or.inl (h.2.trans hr)⟩⟩
  | d + 1, start, s => by
      unfold leftmostExtentBelow
      dsimp only
      rw [wp_bind]
      refine wp_mono (wp_leftmostNode _ (d + 1)) ?_
        fun e s' h => ⟨h.1, h.2.imp id fun hn hok => hn hok.1⟩
      rintro _ s₁ ⟨hr, hok⟩
      rw [wp_bind, wp_loadIndex, hr.bytes, wp_bind]
      refine ⟨fits_one _, wp_mono (wp_blockSet_reads _) (fun _ s₂ h => ?_)
        fun _ _ h => ⟨hr.trans h.1, Or.inl (h.2.trans hr)⟩⟩
      have hr₂ := hr.trans h
      have ih := wp_leftmostExtentBelow d
        (s.bytes.index (.block (indexGetPblock start)) 0) s₂
      rw [hr₂.bytes] at ih
      refine wp_mono ih ?_ ?_
      · rintro x s₃ ⟨rfl, h₃, hedge⟩
        exact ⟨rfl, hr₂.trans h₃, hok, hedge⟩
      · rintro e s₃ ⟨h₃, hcase⟩
        exact ⟨hr₂.trans h₃, hcase.imp (fun h => h.trans hr₂) fun hn hok => hn hok.2⟩

end Rules

/-! ## The next extent -/

/-- The left edge behind the turning point of `ns` is as it should be. -/
def EdgeAfterOk (D : Disk) (ns : List ExtentPathNode) : Prop :=
  ∀ n, turningPoint ns = some n →
    EdgeOk inodeRef D (n.header.depth - 1) (indexGetPblock (D.index n.place (n.position + 1)))

/-- The extent behind the entry a path ends at. -/
def Disk.nextExtent (D : Disk) (ns : List ExtentPathNode) (leaf : ExtentPathNode) :
    Option Ext4Extent :=
  if leaf.position + 1 < leaf.header.entriesCount then
    some (D.extent leaf.place (leaf.position + 1))
  else D.extentAfter ns

/-- Why the climb of `find_next_extent` over the path nodes `ns` fails. -/
def NextError (s : St) (ns : List ExtentPathNode) (e : Errno) (s' : St) : Prop :=
  Reads s s' ∧ (AccessFailed inodeRef s s' e ∨ e = .enoent ∧ s.bytes.extentAfter ns = none ∨
    ¬ EdgeAfterOk inodeRef s.bytes ns)

section Next

variable {inodeRef} {s : St} {lblock : ℕ} {path : ExtentSearchPath}
variable {ns : List ExtentPathNode} {leaf : ExtentPathNode}

theorem turningPoint_nil : turningPoint [] = none := rfl

theorem turningPoint_concat (ns : List ExtentPathNode) (n : ExtentPathNode) :
    turningPoint (ns ++ [n]) =
      if n.position + 1 < n.header.entriesCount then some n else turningPoint ns := by
  unfold turningPoint
  rw [List.reverse_append, List.reverse_singleton, List.singleton_append, List.find?_cons]
  by_cases h : n.position + 1 < n.header.entriesCount <;> simp [h]

theorem wp_findNextExtentLoop (h : PathOk inodeRef s.bytes lblock path ns leaf) :
    ∀ (level : ℕ) (s₁ : St), level ≤ ns.length → Reads s s₁ →
      wp (findNextExtentLoop inodeRef path level)
        (fun x s' => s.bytes.extentAfter (ns.take level) = some x ∧ Reads s s' ∧
          EdgeAfterOk inodeRef s.bytes (ns.take level))
        (NextError inodeRef s (ns.take level)) s₁ := by
  intro level
  induction level with
  | zero => exact fun s₁ _ hr => ⟨hr, Or.inr (Or.inl ⟨rfl, rfl⟩)⟩
  | succ level ih =>
      intro s₁ hlevel hr
      have hlt : level < ns.length := hlevel
      have hget : path.path[level]? = some ns[level] := by
        rw [h.nodes, List.getElem?_append_left hlt, List.getElem?_eq_getElem hlt]
      obtain ⟨d, b, hn⟩ := h.levels.mem ns[level] (List.getElem_mem hlt)
      have hturn : turningPoint (ns.take (level + 1)) =
          if ns[level].position + 1 < ns[level].header.entriesCount then some ns[level]
          else turningPoint (ns.take level) := by
        rw [← turningPoint_concat, List.take_append_getElem hlt]
      have hdepth : ns[level].header.depth = d + 1 := by rw [hn.header]; exact hn.depth
      have hd5 : d + 1 ≤ 5 := by rw [← hn.depth]; exact hn.headerOk.depth
      unfold findNextExtentLoop
      rw [wp_bind, wp_node]
      refine ⟨_, hget, (wp_ite _ _ _).mpr ⟨fun hpos => ?_, fun hpos => ?_⟩⟩
      · rw [if_pos hpos] at hturn
        rw [wp_bind]
        refine wp_mono (wp_nodeGetIndex hn.sane hpos) ?_
          fun e s' he => ⟨hr.trans he.1, Or.inl (he.2.trans hr)⟩
        rintro sibling s₂ ⟨rfl, hr₂⟩
        rw [if_neg (by omega), hdepth, hr.bytes, u16_of_lt (show d + 1 - 1 < 65536 by omega)]
        have hr' := hr.trans hr₂
        refine wp_mono (wp_leftmostExtentBelow _ _ s₂) ?_ ?_
        · rintro x s₃ ⟨rfl, hr₃, hedge⟩
          rw [hr'.bytes] at hedge ⊢
          refine ⟨?_, hr'.trans hr₃, ?_⟩
          · unfold Disk.extentAfter
            rw [hturn, Option.map_some, hdepth]
          · intro n hn'
            rw [hturn] at hn'
            obtain rfl := Option.some.inj hn'
            rwa [hdepth]
        · rintro e s₃ ⟨hr₃, hcase⟩
          rw [hr'.bytes] at hcase
          refine ⟨hr'.trans hr₃, hcase.elim (fun h => Or.inl (h.trans hr')) fun hn' =>
            Or.inr (Or.inr fun hok => hn' ?_)⟩
          have := hok _ hturn
          rwa [hdepth] at this
      · rw [if_neg hpos] at hturn
        have hsame : s.bytes.extentAfter (ns.take (level + 1)) =
            s.bytes.extentAfter (ns.take level) := by unfold Disk.extentAfter; rw [hturn]
        have hedge : EdgeAfterOk inodeRef s.bytes (ns.take (level + 1)) ↔
            EdgeAfterOk inodeRef s.bytes (ns.take level) := by unfold EdgeAfterOk; rw [hturn]
        refine wp_mono (ih s₁ (by omega) hr) ?_ ?_
        · rintro x s' ⟨hx, hr', hok⟩
          exact ⟨hsame.trans hx, hr', hedge.mpr hok⟩
        · rintro e s' ⟨hr', hcase⟩
          refine ⟨hr', hcase.imp id (Or.imp (fun hnone => ⟨hnone.1, hsame.trans hnone.2⟩) ?_)⟩
          exact fun hn' hok => hn' (hedge.mp hok)

/-- The specification of `find_next_extent`, for every disk. -/
theorem wp_findNextExtent (h : PathOk inodeRef s.bytes lblock path ns leaf) {s₁ : St}
    (hr : Reads s s₁) :
    wp (findNextExtent inodeRef path)
      (fun x s' => s.bytes.nextExtent ns leaf = some x ∧ Reads s s' ∧
        (leaf.position + 1 < leaf.header.entriesCount ∨ EdgeAfterOk inodeRef s.bytes ns))
      (fun e s' => Reads s s' ∧ (AccessFailed inodeRef s s' e ∨
        e = .enoent ∧ s.bytes.nextExtent ns leaf = none ∨
        ¬ leaf.position + 1 < leaf.header.entriesCount ∧ ¬ EdgeAfterOk inodeRef s.bytes ns)) s₁ := by
  have hget : path.path[path.depth]? = some leaf := by rw [h.nodes, h.depth]; simp
  unfold findNextExtent
  rw [wp_bind, wp_node]
  refine ⟨leaf, hget, (wp_ite _ _ _).mpr ⟨fun hpos => ?_, fun hpos => ?_⟩⟩
  · refine wp_mono (wp_nodeGetExtent h.leafOk.sane hpos) ?_
      fun e s' he => ⟨hr.trans he.1, Or.inl (he.2.trans hr)⟩
    rintro x s' ⟨rfl, hr'⟩
    rw [hr.bytes]
    exact ⟨if_pos hpos, hr.trans hr', Or.inl hpos⟩
  · have hloop := wp_findNextExtentLoop h ns.length s₁ (Nat.le_refl _) hr
    rw [List.take_length, ← h.depth] at hloop
    have hnext : s.bytes.nextExtent ns leaf = s.bytes.extentAfter ns := if_neg hpos
    refine wp_mono hloop ?_ ?_
    · rintro x s' ⟨hx, hr', hok⟩
      exact ⟨hnext.trans hx, hr', Or.inr hok⟩
    · rintro e s' ⟨hr', hcase⟩
      exact ⟨hr', hcase.imp id (Or.imp (fun h => ⟨h.1, hnext.trans h.2⟩) fun h => ⟨hpos, h⟩)⟩

end Next

end EspLwext4
