import EspLwext4.Extent.Checks

/-!
# What `find_extent` returns

On any disk at all, a returned path satisfies `PathOk`: its levels were copied
from a chain of acceptable headers, every position lies inside its node and
every followed child lies inside the volume. An error means that a read failed
or that the chain met a node that is not `Acceptable`.
-/

namespace EspLwext4

open Prog

variable (inodeRef : InodeRef)

/-! ## Nodes on the way down -/

/-- The checks `find_extent` makes on a node before it searches it. Block number
0 stands for the root, whose checksum is the inode's business. -/
structure Standing (D : Disk) (d b : ℕ) : Prop where
  headerOk : HeaderOk inodeRef (Place.of b) (D.header (Place.of b))
  depth : (D.header (Place.of b)).depth = d
  csum : b ≠ 0 → CsumOk inodeRef (D (Place.of b))

/-- A node that passes every check of the code and is not an empty index node. -/
structure Acceptable (D : Disk) (d b : ℕ) : Prop extends Standing inodeRef D d b where
  entries : EntriesOk inodeRef D (Place.of b) (D.header (Place.of b))
  nonempty : d ≠ 0 → 0 < (D.header (Place.of b)).entriesCount

/-- A path node copied from the index node `b` on the way to `lblock`. -/
structure LevelOk (D : Disk) (lblock d b : ℕ) (node : ExtentPathNode) : Prop
    extends Standing inodeRef D (d + 1) b where
  pblockOfNode : node.pblockOfNode = b
  header : node.header = D.header (Place.of b)
  chosen : Chosen D (Place.of b) node.header.entriesCount lblock node.position
  selected : SelectedOk inodeRef D (Place.of b) node.header node.position
  index : node.index = D.index (Place.of b) node.position
  pblock : node.pblock = indexGetPblock node.index

/-- The last node of a path. -/
structure LeafOk (D : Disk) (lblock b : ℕ) (leaf : ExtentPathNode) : Prop
    extends Standing inodeRef D 0 b where
  pblockOfNode : leaf.pblockOfNode = b
  header : leaf.header = D.header (Place.of b)
  extent : leaf.extent = D.extent (Place.of b) leaf.position
  haveExtent : leaf.haveExtent = true ↔ 0 < leaf.header.entriesCount
  empty : leaf.header.entriesCount = 0 → leaf.position = 0
  chosen : 0 < leaf.header.entriesCount →
    Chosen D (Place.of b) leaf.header.entriesCount lblock leaf.position
  selected : 0 < leaf.header.entriesCount →
    SelectedOk inodeRef D (Place.of b) leaf.header leaf.position

/-- The path nodes `ns` lead from node `b`, `d` levels above the leaves, to `b'`. -/
inductive Levels (D : Disk) (lblock : ℕ) : ℕ → ℕ → List ExtentPathNode → ℕ → ℕ → Prop
  | nil (d b : ℕ) : Levels D lblock d b [] d b
  | cons {d b d' b' : ℕ} {node : ExtentPathNode} {ns : List ExtentPathNode}
      (h : LevelOk inodeRef D lblock d b node) (t : Levels D lblock d node.pblock ns d' b') :
      Levels D lblock (d + 1) b (node :: ns) d' b'

/-- What is known of a path `find_extent` returned. -/
structure PathOk (D : Disk) (lblock : ℕ) (path : ExtentSearchPath)
    (ns : List ExtentPathNode) (leaf : ExtentPathNode) : Prop where
  nodes : path.path = ns ++ [leaf]
  depth : path.depth = ns.length
  levels : Levels inodeRef D lblock (D.header .root).depth 0 ns 0 leaf.pblockOfNode
  leafOk : LeafOk inodeRef D lblock leaf.pblockOfNode leaf

/-! ## Logs -/

/-- `ev` was logged between `s` and `s'`. -/
def LoggedSince (s s' : St) (ev : Event) : Prop := ∃ evs, s'.trace = evs ++ s.trace ∧ ev ∈ evs

/-- The call `c`, made between `s` and `s'`, failed with `e`. -/
def CallFailed (s s' : St) (c : IoCall) (e : Errno) : Prop :=
  ∃ tr, s.trace <:+ tr ∧ inodeRef.lwext4.io c tr = some e ∧ (.io c (some e) :: tr) <:+ s'.trace

/-- A block read issued at `site` between `s` and `s'` failed with `e`. -/
def ReadFailed (s s' : St) (site : Site) (e : Errno) : Prop :=
  ∃ b, CallFailed inodeRef s s' (.transBlockGet site b) e

/-- Some outside call between `s` and `s'` failed with `e`. -/
def IoFailed (s s' : St) (e : Errno) : Prop := ∃ c, CallFailed inodeRef s s' c e

section Lemmas

variable {inodeRef} {s s' s'' : St} {D : Disk} {d b d' b' lblock : ℕ}

theorem LoggedSince.mono {ev : Event} (h : LoggedSince s s' ev) (h' : s'.trace <:+ s''.trace) :
    LoggedSince s s'' ev := by
  obtain ⟨evs, ht, hev⟩ := h
  obtain ⟨evs', ht'⟩ := h'
  exact ⟨evs' ++ evs, by rw [← ht', ht, List.append_assoc], by simp [hev]⟩

theorem St.suffix_log (s : St) (ev : Event) : s.trace <:+ (s.log ev).trace :=
  List.suffix_cons ev s.trace

theorem LoggedSince.of_log (ev : Event) (h : s.trace <:+ s'.trace) :
    LoggedSince s (s'.log ev) ev := by
  obtain ⟨evs, ht⟩ := h
  exact ⟨ev :: evs, by rw [St.trace_log, ← ht]; rfl, by simp⟩

theorem LoggedSince.earlier {ev : Event} (h : LoggedSince s' s'' ev)
    (h' : s.trace <:+ s'.trace) : LoggedSince s s'' ev := by
  obtain ⟨evs, ht, hev⟩ := h
  obtain ⟨evs', ht'⟩ := h'
  exact ⟨evs ++ evs', by rw [ht, ← ht', List.append_assoc], by simp [hev]⟩

theorem CallFailed.mono {c : IoCall} {e : Errno} (h : CallFailed inodeRef s s' c e)
    (h' : s'.trace <:+ s''.trace) : CallFailed inodeRef s s'' c e := by
  obtain ⟨tr, h₁, h₂, h₃⟩ := h
  exact ⟨tr, h₁, h₂, h₃.trans h'⟩

theorem CallFailed.earlier {c : IoCall} {e : Errno} (h : CallFailed inodeRef s' s'' c e)
    (h' : s.trace <:+ s'.trace) : CallFailed inodeRef s s'' c e := by
  obtain ⟨tr, h₁, h₂, h₃⟩ := h
  exact ⟨tr, h'.trans h₁, h₂, h₃⟩

/-- The call that fails now. -/
theorem CallFailed.here {c : IoCall} {e : Errno} (h : s.trace <:+ s'.trace)
    (he : inodeRef.lwext4.io c s'.trace = some e) :
    CallFailed inodeRef s (s'.log (.io c (some e))) c e := ⟨s'.trace, h, he, List.suffix_rfl⟩

theorem ReadFailed.mono {site : Site} {e : Errno} (h : ReadFailed inodeRef s s' site e)
    (h' : s'.trace <:+ s''.trace) : ReadFailed inodeRef s s'' site e := h.imp fun _ h => h.mono h'

theorem ReadFailed.earlier {site : Site} {e : Errno} (h : ReadFailed inodeRef s' s'' site e)
    (h' : s.trace <:+ s'.trace) : ReadFailed inodeRef s s'' site e :=
  h.imp fun _ h => h.earlier h'

theorem ReadFailed.io {site : Site} {e : Errno} (h : ReadFailed inodeRef s s' site e) :
    IoFailed inodeRef s s' e := let ⟨_, h⟩ := h; ⟨_, h⟩

theorem IoFailed.mono {e : Errno} (h : IoFailed inodeRef s s' e)
    (h' : s'.trace <:+ s''.trace) : IoFailed inodeRef s s'' e := h.imp fun _ h => h.mono h'

theorem IoFailed.earlier {e : Errno} (h : IoFailed inodeRef s' s'' e)
    (h' : s.trace <:+ s'.trace) : IoFailed inodeRef s s'' e := h.imp fun _ h => h.earlier h'

theorem childInRange_iff {x : Ext4ExtentIndex} : childInRange inodeRef x = true ↔
    indexGetPblock x ≠ 0 ∧ indexGetPblock x < inodeRef.blocksCnt := by
  unfold childInRange
  simp

theorem extentInRange_iff {e : Ext4Extent} : extentInRange inodeRef e = true ↔
    0 < extentGetActualLen e ∧ e.firstBlock + extentGetActualLen e ≤ 4294967296 ∧
    0 < extentGetPblock e ∧ extentGetPblock e + extentGetActualLen e ≤ inodeRef.blocksCnt := by
  unfold extentInRange uint32Max
  simp only [Bool.not_eq_true', Bool.or_eq_false_iff, decide_eq_false_iff_not]
  omega

theorem LevelOk.child {node : ExtentPathNode} (h : LevelOk inodeRef D lblock d b node) :
    node.pblock ≠ 0 ∧ node.pblock < inodeRef.blocksCnt := by
  have hs := h.selected.2
  rw [if_neg (by rw [h.header, h.depth]; omega), ← h.index] at hs
  rw [h.pblock]
  exact childInRange_iff.mp hs.1

theorem Levels.of_nil (h : Levels inodeRef D lblock d b [] d' b') : d = d' ∧ b = b' := by
  cases h
  exact ⟨rfl, rfl⟩

theorem Levels.of_cons {node : ExtentPathNode} {ns : List ExtentPathNode}
    (h : Levels inodeRef D lblock d b (node :: ns) d' b') :
    ∃ e, d = e + 1 ∧ LevelOk inodeRef D lblock e b node ∧
      Levels inodeRef D lblock e node.pblock ns d' b' := by
  cases h with
  | cons hl ht => exact ⟨_, rfl, hl, ht⟩

theorem Levels.length {ns : List ExtentPathNode} (h : Levels inodeRef D lblock d b ns d' b') :
    d = d' + ns.length := by
  induction h with
  | nil => rfl
  | cons _ _ ih => rw [ih, List.length_cons]; omega

end Lemmas

/-! ## The descent -/

/-- Why `find_extent` fails below node `b`. -/
def DescentError (s : St) (lblock d b : ℕ) (e : Errno) (s' : St) : Prop :=
  Reads s s' ∧ (ReadFailed inodeRef s s' .findExtent e ∨
    ∃ ns d' b', Levels inodeRef s.bytes lblock d b ns d' b' ∧
      ¬ Acceptable inodeRef s.bytes d' b')

/-- Where the descent from node `b` at `path` may arrive. -/
structure DescentOk (s s₁ : St) (lblock d b : ℕ) (path : ExtentSearchPath)
    (r : Place × Ext4ExtentHeader × ℕ × Option ℕ × ExtentSearchPath) (s' : St)
    (ns : List ExtentPathNode) : Prop where
  reads : Reads s s'
  after : s₁.trace <:+ s'.trace
  place : r.1 = Place.of r.2.2.1
  header : r.2.1 = s.bytes.header r.1
  standing : Standing inodeRef s.bytes 0 r.2.2.1
  nodes : r.2.2.2.2.path = path.path ++ ns
  depth : r.2.2.2.2.depth = path.depth + ns.length
  levels : Levels inodeRef s.bytes lblock d b ns 0 r.2.2.1
  checked : ∀ n ∈ ns, LoggedSince s s' (.checked n.pblock 1)

section Descent

variable {inodeRef} {s : St} {lblock : ℕ}

theorem DescentError.released {s₁ s' : St} {d b : ℕ} {e : Errno}
    (h : DescentError inodeRef s lblock d b e s₁) (h' : Reads s₁ s') :
    DescentError inodeRef s lblock d b e s' := by
  obtain ⟨hr, h⟩ := h
  refine ⟨hr.trans h', ?_⟩
  rcases h with h | h
  · exact Or.inl (h.mono h'.suffix)
  · exact Or.inr h

/-- Releasing a block on the way out leaves the error as it was. -/
theorem wp_blockSet_quiet {P : St → Prop} {s₁ : St} {b : ℕ}
    (h : ∀ s', Reads s₁ s' → P s') :
    wp (blockSet inodeRef b) (fun _ => P) (fun _ => P) s₁ := by
  rw [wp_blockSet]
  exact ⟨fun _ => h _ ((Reads.refl _).log rfl), fun _ _ => h _ ((Reads.refl _).log rfl)⟩

theorem wp_push {Q : ExtentSearchPath → St → Prop} {E : Errno → St → Prop}
    {path : ExtentSearchPath} {node : ExtentPathNode} (h : path.path.length ≤ 5)
    (hQ : Q { path with path := path.path ++ [node] } s) : wp (path.push node) Q E s := by
  unfold ExtentSearchPath.push ext4ExtentMaxDepth
  rw [if_pos (by omega)]
  exact hQ

theorem wp_findExtentLoop : ∀ (d b : ℕ) (held : Option ℕ) (path : ExtentSearchPath) (s₁ : St),
    Reads s s₁ → Standing inodeRef s.bytes d b → path.path.length + d ≤ 5 →
    wp (findExtentLoop inodeRef lblock d (Place.of b) (s.bytes.header (Place.of b)) b held path)
      (fun r s' => ∃ ns, DescentOk inodeRef s s₁ lblock d b path r s' ns)
      (DescentError inodeRef s lblock d b) s₁ := by
  intro d
  induction d with
  | zero =>
      intro b held path s₁ hr hb _
      exact ⟨[], hr, List.suffix_rfl, rfl, rfl, hb, by simp, rfl, .nil _ _, by simp⟩
  | succ d ih =>
      intro b held path s₁ hr hb hlen
      -- an unacceptable node ends the walk here
      have stop (s' : St) (e : Errno) (hs' : Reads s s')
          (hn : ¬ Acceptable inodeRef s.bytes (d + 1) b) :
          DescentError inodeRef s lblock (d + 1) b e s' :=
        ⟨hs', Or.inr ⟨[], d + 1, b, .nil _ _, hn⟩⟩
      unfold findExtentLoop
      rw [wp_bind]
      refine wp_binsearchIdx hb.headerOk.fits ?_ ?_
      · intro h0
        rw [wp_onError, wp_raise]
        refine wp_releaseHeld (fun s' h' => stop s' _ (hr.trans h') fun ha => ?_)
          fun _ s' h' => stop s' _ (hr.trans h') fun ha => ?_ <;>
        · have := ha.nonempty (by omega)
          omega
      · intro pos hpos
        rw [hr.bytes] at hpos
        rw [wp_bind, wp_onError, wp_validateSelectedEntry hb.headerOk.fits, hr.bytes]
        refine ⟨fun hsel => ?_, fun hsel => ?_⟩
        swap
        · refine wp_releaseHeld (fun s' h' => stop s' _ (hr.trans h') fun ha => ?_)
            fun _ s' h' => stop s' _ (hr.trans h') fun ha => ?_ <;>
          exact hsel (ha.entries.selectedOk hpos.lt)
        have hev : checkedEvent s.bytes (Place.of b) (s.bytes.header (Place.of b)) pos =
            .checked (indexGetPblock (s.bytes.index (Place.of b) pos)) 1 :=
          if_neg (by rw [hb.depth]; omega)
        rw [hev]
        set ev : Event := .checked (indexGetPblock (s.bytes.index (Place.of b) pos)) 1
        have hr₂ : Reads s (s₁.log ev) := hr.log rfl
        have hlog := LoggedSince.of_log ev hr.suffix
        have hs₂ := s₁.suffix_log ev
        generalize s₁.log ev = s₂ at hr₂ hlog hs₂
        rw [wp_bind, wp_loadIndex, and_iff_right (hb.headerOk.fits.mono hpos.lt), hr₂.bytes,
          wp_bind]
        refine wp_push (by omega) ?_
        set next := indexGetPblock (s.bytes.index (Place.of b) pos) with hnext
        set node : ExtentPathNode := {
          header := s.bytes.header (Place.of b), index := s.bytes.index (Place.of b) pos,
          extent := zeroExtent, haveIndex := true, haveExtent := false, position := pos,
          pblock := next, pblockOfNode := b } with hnode
        have level : LevelOk inodeRef s.bytes lblock d b node :=
          ⟨hb, rfl, rfl, hpos, hsel, rfl, rfl⟩
        have hne : Place.of next = .block next := Place.of_ne_zero level.child.1
        rw [wp_bind, wp_onError, wp_nodeBlockGet]
        refine ⟨fun _ => ?_, fun e he => ?_⟩
        swap
        · have hfail : ReadFailed inodeRef s _ .findExtent e := ⟨_, .here hr₂.suffix he⟩
          refine wp_releaseHeld
            (fun s' h' => ⟨(hr₂.log rfl).trans h', Or.inl (hfail.mono h'.suffix)⟩)
            fun _ s' h' => ⟨(hr₂.log rfl).trans h', Or.inl (hfail.mono h'.suffix)⟩
        have hr₃ : Reads s (s₂.log (.io (.transBlockGet .findExtent next) none)) := hr₂.log rfl
        have hs₁ := hs₂.trans (s₂.suffix_log (.io (.transBlockGet .findExtent next) none))
        have hlog₃ := hlog.mono (s₂.suffix_log (.io (.transBlockGet .findExtent next) none))
        generalize s₂.log _ = s₃ at hr₃ hlog₃ hs₁
        -- an unacceptable child ends the walk one level further down
        have stopChild (s' : St) (e : Errno) (hs' : Reads s s')
            (hn : ¬ Acceptable inodeRef s.bytes d next) :
            DescentError inodeRef s lblock (d + 1) b e s' :=
          ⟨hs', Or.inr ⟨[node], d, next, .cons level (.nil _ _), hn⟩⟩
        rw [wp_bind, wp_onError, wp_onError, wp_verifyExtentBlockChecksum, hr₃.bytes, ← hne]
        refine ⟨fun hcsum => ?_, fun hcsum => ?_⟩
        swap
        · refine wp_blockSet_quiet fun s' h' => ?_
          refine wp_releaseHeld (fun s'' h'' => stopChild s'' _ ((hr₃.trans h').trans h'') ?_)
            (fun _ s'' h'' => stopChild s'' _ ((hr₃.trans h').trans h'') ?_) <;>
          exact fun ha => hcsum (ha.csum level.child.1)
        rw [wp_bind, wp_attempt]
        have key (s₄ : St) (h₄ : Reads s₃ s₄) : wp (do
            let header ← loadHeader inodeRef (Place.of next)
            (validateHeader inodeRef false header).onError (blockSet inodeRef next)
            if header.depth ≠ d then
              (raise .eio : M _).onError (blockSet inodeRef next)
            else
              findExtentLoop inodeRef lblock d (Place.of next) header next (some next)
                { path with path := path.path ++ [node], depth := path.depth + 1 })
            (fun r s' => ∃ ns, DescentOk inodeRef s s₄ lblock (d + 1) b path r s' ns)
            (DescentError inodeRef s lblock (d + 1) b) s₄ := by
          have hr₄ := hr₃.trans h₄
          rw [wp_bind, wp_loadHeader, hr₄.bytes, wp_bind, wp_onError,
            show false = (Place.of next).isRoot by rw [hne]; rfl, wp_validateHeader]
          refine ⟨fun hhead => ?_, fun hhead => ?_⟩
          swap
          · exact wp_blockSet_quiet fun s' h' =>
              stopChild s' _ (hr₄.trans h') fun ha => hhead ha.headerOk
          by_cases hd : (s.bytes.header (Place.of next)).depth = d
          swap
          · rw [if_pos hd, wp_onError, wp_raise]
            exact wp_blockSet_quiet fun s' h' =>
              stopChild s' _ (hr₄.trans h') fun ha => hd ha.depth
          rw [if_neg (not_not.mpr hd)]
          refine wp_mono (ih next (some next) _ s₄ hr₄ ⟨hhead, hd, fun _ => hcsum⟩
            (by simp; omega)) ?_ ?_
          · rintro r s' ⟨ns, h⟩
            refine ⟨node :: ns, h.reads, h.after, h.place, h.header, h.standing, ?_, ?_,
              .cons level h.levels, ?_⟩
            · rw [h.nodes]; simp
            · rw [h.depth]; simp; omega
            · intro n hn
              rcases List.mem_cons.mp hn with rfl | hn
              · exact hlog₃.mono (h₄.suffix.trans h.after)
              · exact h.checked n hn
          · rintro e s' ⟨hs', hcase⟩
            refine ⟨hs', hcase.imp id ?_⟩
            rintro ⟨ns, d', b', hl, hn⟩
            exact ⟨node :: ns, d', b', .cons level hl, hn⟩
        have later (r) (s₄ s' : St) (h₄ : Reads s₃ s₄) :
            (∃ ns, DescentOk inodeRef s s₄ lblock (d + 1) b path r s' ns) →
              ∃ ns, DescentOk inodeRef s s₁ lblock (d + 1) b path r s' ns :=
          fun ⟨ns, h⟩ => ⟨ns, { h with after := (hs₁.trans h₄.suffix).trans h.after }⟩
        have close (s₄ : St) (h₄ : Reads s₃ s₄) :=
          wp_mono (key s₄ h₄) (fun r s' => later r s₄ s' h₄) fun _ _ h => h
        exact wp_releaseHeld close fun _ => close

end Descent

/-- The physical block of `lblock` by the entry in `leaf`, 0 when there is none. -/
def ExtentPathNode.resolve (leaf : ExtentPathNode) (lblock : ℕ) : ℕ :=
  if leaf.haveExtent ∧ inExtent leaf.extent lblock then
    extentGetPblock leaf.extent + (lblock - leaf.extent.firstBlock) else 0

/-- What a successful search tells, apart from having changed nothing. -/
structure Found (s : St) (lblock : ℕ) (path : ExtentSearchPath) (s' : St)
    (ns : List ExtentPathNode) (leaf : ExtentPathNode) : Prop where
  reads : Reads s s'
  pathOk : PathOk inodeRef s.bytes lblock path ns leaf
  pblock : leaf.pblock = leaf.resolve lblock
  checkedIndex : ∀ n ∈ ns, LoggedSince s s' (.checked n.pblock 1)
  checkedExtent : 0 < leaf.header.entriesCount →
    LoggedSince s s' (.checked (extentGetPblock leaf.extent) (extentGetActualLen leaf.extent))

section Search

variable {inodeRef} {s : St} {lblock : ℕ}

theorem wp_findExtentLeaf {d : ℕ} {path : ExtentSearchPath} {s₀ s₁ : St}
    {r : Place × Ext4ExtentHeader × ℕ × Option ℕ × ExtentSearchPath}
    {ns : List ExtentPathNode} (h : DescentOk inodeRef s s₀ lblock d 0 path r s₁ ns)
    (hd : d = (s.bytes.header .root).depth) (hpath : path.path = []) (hdepth : path.depth = 0) :
    wp (findExtentLeaf inodeRef lblock r.1 r.2.1 r.2.2.1 r.2.2.2.1 r.2.2.2.2)
      (fun path' s' => ∃ leaf, Found inodeRef s lblock path' s' ns leaf)
      (DescentError inodeRef s lblock d 0) s₁ := by
  obtain ⟨p, hdr, b, held, path'⟩ := r
  obtain ⟨hr, -, hplace, hheader, hb, hnodes, hdep, hlev, hchk⟩ := h
  dsimp only at hplace hheader hnodes hdep hlev hb
  subst hplace hheader
  rw [hpath, List.nil_append] at hnodes
  rw [hdepth, Nat.zero_add] at hdep
  have hlen : path'.path.length ≤ 5 := by
    have h5 := hlev.length
    have hroot : d ≤ 5 := by
      cases hlev with
      | nil => omega
      | cons hl _ => rw [← hl.depth]; exact hl.headerOk.depth
    rw [hnodes]; omega
  have finish (leaf : ExtentPathNode) (s₂ : St) (h₂ : Reads s₁ s₂)
      (hleaf : LeafOk inodeRef s.bytes lblock b leaf)
      (hpblock : leaf.pblock = leaf.resolve lblock) (hext : 0 < leaf.header.entriesCount → LoggedSince s s₂
        (.checked (extentGetPblock leaf.extent) (extentGetActualLen leaf.extent))) :
      wp (path'.push leaf) (fun path'' s' => ∃ leaf, Found inodeRef s lblock path'' s' ns leaf)
        (DescentError inodeRef s lblock d 0) s₂ := by
    refine wp_push hlen ⟨leaf, hr.trans h₂, ⟨by rw [hnodes], hdep, ?_, ?_⟩, hpblock,
      fun n hn => (hchk n hn).mono h₂.suffix, hext⟩
    · rw [← hd, hleaf.pblockOfNode]; exact hlev
    · rw [hleaf.pblockOfNode]; exact hleaf
  unfold findExtentLeaf
  dsimp only
  rw [wp_bind]
  refine wp_binsearchExtent hb.headerOk.fits hb.headerOk.fits_one ?_ ?_
  · intro h0
    rw [wp_ite]
    refine ⟨fun hc => by omega, fun _ => ?_⟩
    rw [wp_bind, wp_attempt, hr.bytes]
    have done (s₂ : St) (h₂ : Reads s₁ s₂) := finish {
        header := s.bytes.header (Place.of b), index := zeroIndex,
        extent := s.bytes.extent (Place.of b) 0, haveIndex := false, haveExtent := false,
        position := 0, pblock := 0, pblockOfNode := b } s₂ h₂
      ⟨hb, rfl, rfl, rfl, by simp [h0], fun _ => rfl,
        fun hc => absurd h0 (Nat.pos_iff_ne_zero.mp hc),
        fun hc => absurd h0 (Nat.pos_iff_ne_zero.mp hc)⟩ rfl
      fun hc => absurd h0 (Nat.pos_iff_ne_zero.mp hc)
    exact wp_releaseHeld done fun _ => done
  · intro pos hpos
    rw [hr.bytes] at hpos ⊢
    have hn : 0 < (s.bytes.header (Place.of b)).entriesCount := by have := hpos.lt; omega
    rw [wp_ite]
    refine ⟨fun _ => ?_, fun hc => absurd hn hc⟩
    rw [wp_bind, wp_attempt, wp_validateSelectedEntry hb.headerOk.fits, hr.bytes]
    refine ⟨fun hsel => ?_, fun hsel => ?_⟩
    · have hev : checkedEvent s.bytes (Place.of b) (s.bytes.header (Place.of b)) pos =
          .checked (extentGetPblock (s.bytes.extent (Place.of b) pos))
            (extentGetActualLen (s.bytes.extent (Place.of b) pos)) := if_pos hb.depth
      rw [hev, wp_bind, wp_attempt]
      generalize hextent : s.bytes.extent (Place.of b) pos = ext
      have hlog := LoggedSince.of_log
        (.checked (extentGetPblock ext) (extentGetActualLen ext)) hr.suffix
      have done (s₂ : St)
          (h₂ : Reads (s₁.log (.checked (extentGetPblock ext) (extentGetActualLen ext))) s₂) :=
        finish {
            header := s.bytes.header (Place.of b), index := zeroIndex, extent := ext,
            haveIndex := false, haveExtent := true, position := pos,
            pblock := if inExtent ext lblock then
              extentGetPblock ext + (lblock - ext.firstBlock) else 0,
            pblockOfNode := b } s₂ (((Reads.refl s₁).log rfl).trans h₂)
          ⟨hb, rfl, rfl, hextent.symm, by simp [hn],
            fun h0 => absurd h0 (Nat.pos_iff_ne_zero.mp hn), fun _ => hpos, fun _ => hsel⟩
          (by simp [ExtentPathNode.resolve])
          fun _ => hlog.mono h₂.suffix
      exact wp_releaseHeld done fun _ => done
    · rw [wp_bind, wp_attempt]
      have bad (s₂ : St) (h₂ : Reads s₁ s₂) : DescentError inodeRef s lblock d 0 .eio s₂ :=
        ⟨hr.trans h₂, Or.inr ⟨ns, 0, b, hlev, fun ha => hsel (ha.entries.selectedOk hpos.lt)⟩⟩
      exact wp_releaseHeld bad fun _ => bad

/-- The specification of `find_extent`, for every disk. -/
theorem wp_findExtent :
    wp (findExtent inodeRef lblock)
      (fun path s' => ∃ ns leaf, Found inodeRef s lblock path s' ns leaf)
      (DescentError inodeRef s lblock (s.bytes.header .root).depth 0) s := by
  unfold findExtent
  have bad (e : Errno) (h : ¬ Acceptable inodeRef s.bytes (s.bytes.header .root).depth 0) :
      DescentError inodeRef s lblock (s.bytes.header .root).depth 0 e s :=
    ⟨.refl s, Or.inr ⟨[], _, 0, .nil _ _, h⟩⟩
  rw [wp_bind, wp_loadHeader, wp_bind, show true = Place.root.isRoot from rfl, wp_validateHeader]
  refine ⟨fun hhead => ?_, fun hhead => bad _ fun ha => hhead ha.headerOk⟩
  rw [wp_bind]
  refine wp_validateEntries_reads hhead.fits (fun _ s₁ h₁ => ?_)
    fun hent => bad _ fun ha => hent ha.entries
  rw [wp_bind]
  have hroot : Standing inodeRef s.bytes (s.bytes.header .root).depth 0 :=
    ⟨hhead, rfl, fun h => absurd rfl h⟩
  refine wp_mono (wp_findExtentLoop _ 0 none ⟨0, _, []⟩ s₁ h₁ hroot ?_) ?_ fun _ _ h => h
  · have := hhead.depth
    unfold ext4ExtentMaxDepth at this
    simpa using this
  · rintro r s' ⟨ns, h⟩
    exact wp_mono (wp_findExtentLeaf h rfl rfl rfl) (fun path s'' ⟨leaf, h'⟩ => ⟨ns, leaf, h'⟩)
      fun _ _ h' => h'

end Search

end EspLwext4
