import EspLwext4.Extent.Created
import EspLwext4.Extent.Removing
import EspLwext4.Extent.Sample

/-!
# Removing a range

Every round of `ext4_extent_remove_space` cuts blocks out of one extent, or skips blocks that
are not mapped, and moves `from` forward; so the rounds together take the range out of the map
and nothing else. A hole inside one extent is punched in the first round or not at all.
-/

namespace EspLwext4

open Prog Bytes Ranged

variable (inodeRef : InodeRef)

/-- Between `s` and `s'` the tree `t` became `t'`, which maps no block from `a` on and before
`z`, and the others as `t` does. The blocks `t'` does not refer to any more were given back. -/
structure Removed (s s' : St) {d d' : ℕ} (t : SepTree Ext4Extent d) (a z : ℕ)
    (t' : SepTree Ext4Extent d') : Prop where
  rep : Rep inodeRef .built s'.bytes t'
  ok : TreeOk inodeRef .built t'
  values : ∀ v, valueAt Ext4Extent.blockAt t'.items v =
    if a ≤ v ∧ v < z then none else valueAt Ext4Extent.blockAt t.items v
  within : ∀ e ∈ t'.items, ∃ x ∈ t.items, first x ≤ first e ∧ stop e ≤ stop x
  settled : Settled (refs t) s s' (refs t')
  exact : t.Exact → t'.Exact

/-- A block could not be read after a part of a change to the tree was written. -/
def Interrupted (s s' : St) (err : Errno) : Prop :=
  ∃ site, (site = .splitShorten ∨ site = .writeIndexAt ∨ site = .removeIndex) ∧
    ReadFailed inodeRef s s' site err

/-- An extent reaches out of the blocks from `a` on and before `z` on both sides. -/
def Straddled (es : List Ext4Extent) (a z : ℕ) : Prop := ∃ e ∈ es, first e < a ∧ z < stop e

/-- Removing the blocks from `a` on and before `z` failed. On a tree that is whole, blocks from
`a` on are gone, and none are unless a call failed. -/
def RemoveFailed (s s' : St) {d : ℕ} (t : SepTree Ext4Extent d) (a z : ℕ) (err : Errno) : Prop :=
  (∃ n, a ≤ n ∧ n ≤ z ∧ (∃ (d' : ℕ) (t' : SepTree Ext4Extent d'), Removed inodeRef s s' t a n t') ∧
    (IoFailed inodeRef s s' err ∨ n = a ∧ Straddled t.items a z)) ∨
  Interrupted inodeRef s s' err

section Lemmas

variable {inodeRef} {s s₁ s' : St} {d d' d'' a b n z lblock f last : ℕ} {err : Errno}
variable {t : SepTree Ext4Extent d} {t₁ : SepTree Ext4Extent d'} {t' : SepTree Ext4Extent d''}
variable {own : Multiset ℕ} {c : Ctx Ext4Extent 0 d} {es l r : List Ext4Extent} {x : Ext4Extent}
variable {path : ExtentSearchPath} {leaf : ExtentPathNode}

/-! ## Rounds one after the other -/

theorem Removed.of_reads (hreads : Reads s s') (hrep : Rep inodeRef .built s.bytes t)
    (ok : TreeOk inodeRef .built t)
    (hfree : ∀ v, a ≤ v → v < z → valueAt Ext4Extent.blockAt t.items v = none) :
    Removed inodeRef s s' t a z t := by
  refine ⟨hreads.bytes ▸ hrep, ok, fun v => ?_, fun e he => ⟨e, he, Nat.le_refl _, Nat.le_refl _⟩,
    .of_quiet _ hreads.quiet, id⟩
  split
  · rename_i hv
    exact hfree v hv.1 hv.2
  · rfl

theorem Removed.after_reads (h : Removed inodeRef s₁ s' t a z t') (hreads : Reads s s₁) :
    Removed inodeRef s s' t a z t' :=
  ⟨h.rep, h.ok, h.values, h.within, (Settled.of_quiet _ hreads.quiet).trans h.settled, h.exact⟩

theorem Removed.reads (h : Removed inodeRef s s₁ t a z t') (hreads : Reads s₁ s') :
    Removed inodeRef s s' t a z t' :=
  ⟨hreads.bytes ▸ h.rep, h.ok, h.values, h.within, h.settled.trans (.of_quiet _ hreads.quiet),
    h.exact⟩

/-- A round that ends at `n`, and the rest from there on. -/
theorem Removed.trans (h : Removed inodeRef s s₁ t a (min n z) t₁)
    (h' : Removed inodeRef s₁ s' t₁ n b t') (hle : a ≤ n) (hb : b ≤ z) (hz : b = z ∨ n ≤ b) :
    Removed inodeRef s s' t a b t' := by
  refine ⟨h'.rep, h'.ok, fun v => ?_, fun e he => ?_, h.settled.trans h'.settled,
    fun hex => h'.exact (h.exact hex)⟩
  · rw [h'.values, h.values]
    by_cases h₁ : n ≤ v ∧ v < b
    · rw [if_pos h₁, if_pos (by omega)]
    · by_cases h₂ : a ≤ v ∧ v < min n z
      · rw [if_neg h₁, if_pos h₂, if_pos (by omega)]
      · rw [if_neg h₁, if_neg h₂, if_neg (by omega)]
  · obtain ⟨y, hy, hfirst, hstop⟩ := h'.within e he
    obtain ⟨x, hx, hfirst', hstop'⟩ := h.within y hy
    exact ⟨x, hx, Nat.le_trans hfirst' hfirst, Nat.le_trans hstop hstop'⟩

/-- A cut takes blocks off the map that start where the range does, but for unmapped ones. -/
theorem CutOut.removed (h : CutOut inodeRef s s' t b z t') (ok : TreeOk inodeRef .built t)
    (hcnt : inodeRef.blocksCnt ≤ pblockLimit) (hle : a ≤ b)
    (hfree : ∀ v, a ≤ v → v < b → valueAt Ext4Extent.blockAt t.items v = none) :
    Removed inodeRef s s' t a z t' := by
  have hrest (x : Ext4Extent) (ys : List Ext4Extent) (hx : CutTo inodeRef b z x ys) :
      Rest Ext4Extent.blockAt x b z ys := hx.rest hcnt
  have hpos : ∀ e ∈ t.items, first e < stop e := fun e he => first_lt_stop (ok.inRange e he)
  refine ⟨h.rep, h.ok, fun v => ?_, h.items.inside hrest, h.settled, h.exact⟩
  rw [h.items.valueAt_eq hrest (SepTree.items_sorted ok.sorted) hpos]
  by_cases hv : b ≤ v ∧ v < z
  · rw [if_pos hv, if_pos (by omega)]
  · rw [if_neg hv]
    split
    · rename_i hin
      exact hfree v hin.1 (by omega)
    · rfl

/-- A tree of another shape maps the same blocks. -/
theorem Reshaped.removed (h : Reshaped inodeRef .built (refs t) s s' t own t')
    (ok : TreeOk inodeRef .built t) : Removed inodeRef s s' t a a t' := by
  have hbelow : t'.below = own + t.below :=
    below_of_addrs (h.holding.ok.addr.trans ok.addr.symm) h.addrs
  have hrefs : refs t' = own + refs t := by
    unfold refs
    rw [hbelow, h.content.items, add_assoc]
  refine ⟨h.holding.rep, h.holding.ok, fun v => ?_, fun e he => ?_, hrefs ▸ h.spent.settled,
    h.content.exact⟩
  · rw [if_neg (by omega), h.content.items]
  · exact ⟨e, h.content.items ▸ he, Nat.le_refl _, Nat.le_refl _⟩

theorem Removed.holding (h : Removed inodeRef s s' t a z t')
    (hold : Holding inodeRef .built (refs t) s t) : Holding inodeRef .built (refs t') s' t' :=
  ⟨h.rep, h.ok, fun _ ha => Multiset.mem_add.mpr (Or.inl ha), hold.handsOut.settled h.settled⟩

theorem Interrupted.earlier (h : Interrupted inodeRef s₁ s' err) (h' : s.trace <:+ s₁.trace) :
    Interrupted inodeRef s s' err := by
  obtain ⟨site, hsite, hfail⟩ := h
  exact ⟨site, hsite, hfail.earlier h'⟩

theorem Stranded.interrupted (h : Stranded inodeRef s s' err) : Interrupted inodeRef s s' err := by
  rcases h with h | h
  · exact ⟨.writeIndexAt, Or.inr (Or.inl rfl), h⟩
  · exact ⟨.removeIndex, Or.inr (Or.inr rfl), h⟩

/-- A read failed while the tree stood. -/
theorem RemoveFailed.of_io (hold : Holding inodeRef .built (refs t) s t) (hreads : Reads s s')
    (hle : a ≤ z) (h : IoFailed inodeRef s s' err) : RemoveFailed inodeRef s s' t a z err :=
  Or.inl ⟨a, Nat.le_refl a, hle, ⟨d, t, .of_reads hreads hold.rep hold.ok fun v h₁ h₂ => by omega⟩, Or.inl h⟩

theorem RemoveFailed.after_reads (h : RemoveFailed inodeRef s₁ s' t a z err) (hreads : Reads s s₁) :
    RemoveFailed inodeRef s s' t a z err := by
  rcases h with ⟨n, hle, hn, ⟨d', t', hrem⟩, hcause⟩ | h
  · refine Or.inl ⟨n, hle, hn, ⟨d', t', hrem.after_reads hreads⟩, hcause.imp (fun h => ?_) id⟩
    exact h.earlier hreads.suffix
  · exact Or.inr (h.earlier hreads.suffix)

/-- No room for the second end of an extent. -/
theorem RoomFailed.removeFailed (h : RoomFailed inodeRef .built (refs t) s s' t err)
    (ok : TreeOk inodeRef .built t) (hle : a ≤ z) (hstraddled : Straddled t.items a z) :
    RemoveFailed inodeRef s s' t a z err := by
  rcases h with ⟨d', own, t', hre, -⟩ | ⟨s₁, d', own, t', hre, hfail, -⟩
  · exact Or.inl ⟨a, Nat.le_refl a, hle, ⟨d', t', hre.removed ok⟩, Or.inr ⟨rfl, hstraddled⟩⟩
  · exact Or.inr ⟨.splitShorten, Or.inl rfl, hfail.earlier hre.spent.suffix⟩

/-! ## Around the entry a search ended at -/

section Gaps

variable (ok : TreeOk inodeRef .built t)
  (hloc : Located inodeRef s.bytes t f path c b (l ++ x :: r) leaf)

include hloc

theorem Located.items_eq : t.items = (c.itemsLeft ++ l ++ [x]) ++ (r ++ c.itemsRight) := by
  rw [← hloc.plug, Ctx.items_plug, SepTree.items_leaf]
  simp

include ok

/-- In front of the first entry of a leaf nothing is mapped, from the block searched for on. -/
theorem Located.free_before (hl : l = [] ∨ first x ≤ f) {v : ℕ} (hv : f ≤ v) (hlt : v < first x) :
    valueAt Ext4Extent.blockAt t.items v = none := by
  obtain rfl : l = [] := hl.resolve_right (by omega)
  have hitems : t.items = c.itemsLeft ++ (x :: r ++ c.itemsRight) := by
    rw [hloc.items_eq]
    simp
  have hapart : Apart t.items := SepTree.items_sorted ok.sorted
  have hpos : ∀ e ∈ t.items, first e < stop e := fun e he => first_lt_stop (ok.inRange e he)
  rw [hitems] at hapart hpos ⊢
  refine valueAt_between hapart (fun e he => ?_) (fun e he => hloc.stop_le_of_left ok he) ?_ hv
  · exact Nat.le_of_lt (hpos e (List.mem_append_right _ he))
  · intro e he
    obtain rfl := Option.some.inj he
    exact hlt

/-- Nor is anything between an entry that ends at or before the block and the next one. -/
theorem Located.free_behind (hx : stop x ≤ f) {v : ℕ} (hv : f ≤ v)
    (hlt : ∀ e ∈ (r ++ c.itemsRight).head?, v < first e) :
    valueAt Ext4Extent.blockAt t.items v = none := by
  have hitems := hloc.items_eq
  have hapart : Apart t.items := SepTree.items_sorted ok.sorted
  have hpos : ∀ e ∈ t.items, first e < stop e := fun e he => first_lt_stop (ok.inRange e he)
  rw [hitems] at hapart hpos ⊢
  refine valueAt_between hapart (fun e he => ?_) (fun e he => ?_) hlt hv
  · exact Nat.le_of_lt (hpos e (List.mem_append_right _ he))
  · rcases List.mem_append.mp he with he | he
    · rcases List.mem_append.mp he with he | he
      · exact hloc.stop_le_of_left ok he
      · have hes := hloc.apart ok
        have hle := (List.pairwise_append.mp hes).2.2 e he x (by simp)
        have hxx := first_lt_stop (ok.inRange x (hloc.mem_items (by simp)))
        omega
    · obtain rfl := List.mem_singleton.mp he
      exact hx

end Gaps

/-! ## One round -/

/-- What `remove_leaf` is called for. -/
theorem trims_of_round (hfits : x.Fits) (hrange : extentInRange inodeRef x = true)
    (hreach : f < stop x) (hlower : first x ≤ last)
    (hmid : ¬ (first x < f ∧ last < stop x - 1)) :
    Trims x f (if stop x - 1 < last then stop x - 1 else last) := by
  obtain ⟨hlen, hstop, -, -⟩ := extentInRange_iff.mp hrange
  rw [stop_extent] at hreach hmid ⊢
  rw [first_extent] at hlower hmid
  refine ⟨hfits, hlen, hstop, hreach, ?_, ?_, ?_⟩ <;> split <;> omega

/-- A round takes the blocks from `f` on off the map, up to where the next round starts. -/
theorem wp_removeSpaceStep (hw : WritesSucceed inodeRef) (hmiss : NeverMissing inodeRef)
    (hcnt : inodeRef.blocksCnt ≤ pblockLimit) (hold : Holding inodeRef .built (refs t) s t)
    (hle : f ≤ last) (hlast : last ≤ uint32Max) :
    wp (removeSpaceStep inodeRef f last)
      (fun r s' => (∀ next, r = some next → f < next) ∧ ∃ (d' : ℕ) (t' : SepTree Ext4Extent d'),
        Removed inodeRef s s' t f (min (r.getD (last + 1)) (last + 1)) t')
      (fun err s' => RemoveFailed inodeRef s s' t f (last + 1) err) s := by
  have hrep := hold.rep
  have ok := hold.ok
  unfold removeSpaceStep
  rw [wp_bind]
  refine wp_mono (wp_findExtent_located hrep ok) ?_ ?_
  swap
  · rintro err s' ⟨hreads, hfail⟩
    exact .of_io hold hreads (by omega) hfail.io
  rintro path s₁ ⟨h₁, c, b, es, leaf, hloc⟩
  rw [wp_bind, wp_node]
  refine ⟨leaf, hloc.leafNode, ?_⟩
  have hcount := hloc.leafAt.count
  have hcursor := hloc.leafAt.cursor
  generalize hes : es = es' at hcursor
  cases hcursor with
  | empty _ hhave =>
      subst hes
      rw [if_pos (Or.inl hhave)]
      refine ⟨fun _ h => (by cases h), d, t, .of_reads h₁ hrep ok fun v _ _ => ?_⟩
      rw [hloc.items_of_empty hrep ok]
      rfl
  | entry l x r hpos hextent hhave hfirst hnext =>
  subst hes hextent
  have hmem : leaf.extent ∈ t.items := hloc.mem_items (by simp)
  have hrange := ok.inRange _ hmem
  have hxlt := first_lt_stop hrange
  rw [wp_ite]
  constructor
  · -- the range ends in front of the first extent behind it
    intro hnone
    have hlt : last < first leaf.extent := by
      rcases hnone with h | h | h
      · cases hhave.symm.trans h
      · rw [hcount] at h
        simp at h
      · exact h
    refine ⟨fun _ h => (by cases h), d, t, .of_reads h₁ hrep ok fun v hv hvlt => ?_⟩
    refine hloc.free_before ok hfirst hv ?_
    simp only [Option.getD_none] at hvlt
    omega
  intro hsome
  have hxle : first leaf.extent ≤ last := by
    by_contra hlt
    exact hsome (Or.inr (Or.inr (Nat.not_le.mp hlt)))
  dsimp only
  rw [lastBlock_eq hrange, ← stop_extent, wp_ite, wp_ite]
  refine ⟨fun hmid => ?_, fun hmid => ⟨fun hhole => ?_, fun hin => ?_⟩⟩
  · -- the extent reaches out on both sides
    rw [wp_bind]
    have hstraddled : Straddled t.items f (last + 1) := by
      refine ⟨leaf.extent, hmem, hmid.1, ?_⟩
      omega
    refine wp_mono (wp_removeMiddleOfExtent hw hcnt (hold.reads h₁) hmem hmid.1 hle (by omega)) ?_ ?_
    · rintro _ s' ⟨d', t', hcut⟩
      refine ⟨fun _ h => (by cases h), d', t', Removed.after_reads ?_ h₁⟩
      rw [Option.getD_none, Nat.min_self]
      exact hcut.removed ok hcnt (Nat.le_refl _) fun v _ _ => by omega
    · rintro err s' hfail
      exact (hfail.removeFailed ok (by omega) hstraddled).after_reads h₁
  · -- the range starts behind the extent, in a hole
    have hbehind : stop leaf.extent ≤ f := by omega
    rw [wp_bind, wp_attempt]
    rw [← h₁.bytes] at hrep hloc
    refine wp_mono (wp_findNextExtent_behind hrep ok hloc hpos) ?_ ?_
    · rintro y s₂ ⟨hy, h₂⟩
      have hlt : f < first y := hloc.lt_first_of_next ok hnext y hy
      refine ⟨fun next h => ?_, d, t, ?_⟩
      · obtain rfl := Option.some.inj h
        exact hlt
      · refine .of_reads (h₁.trans h₂) hold.rep ok fun v hv hvlt => hloc.free_behind ok hbehind hv ?_
        intro e he
        obtain rfl := Option.some.inj (hy.symm.trans he)
        exact Nat.lt_of_lt_of_le hvlt (Nat.min_le_left _ _)
    · rintro err s₂ ⟨h₂, hfail⟩
      have hnothing (hnil : r ++ c.itemsRight = []) :
          Removed inodeRef s s₂ t f (min (last + 1) (last + 1)) t := by
        refine .of_reads (h₁.trans h₂) hold.rep ok fun v hv _ => hloc.free_behind ok hbehind hv ?_
        rw [hnil]
        intro e he
        cases he
      by_cases herr : err = .enoent
      · subst herr
        rcases hfail with h | ⟨-, hnil⟩
        · exact absurd h.io hmiss.not_failed
        · exact ⟨fun _ h => (by cases h), d, t, hnothing hnil⟩
      · have hio := (hfail.resolve_right fun h => herr h.1).io.earlier h₁.suffix
        cases err with
        | enoent => exact absurd rfl herr
        | _ => exact .of_io hold (h₁.trans h₂) (by omega) hio
  · -- blocks of the extent go
    have htrim := trims_of_round (hrep.items_fits _ hmem) hrange (by omega) hxle hmid
    have hto := htrim.cut_lt
    generalize hremoveTo : (if stop leaf.extent - 1 < last then stop leaf.extent - 1 else last) =
      removeTo at htrim hto ⊢
    have htole : removeTo ≤ last := by
      rw [← hremoveTo]
      split <;> omega
    rw [← h₁.bytes] at hrep hloc
    rw [wp_bind]
    refine wp_mono (wp_removeLeaf hw hcnt hrep ok hloc hpos rfl htrim) ?_ ?_
    · rintro _ s' ⟨d', t', hcut⟩
      have hrem : Removed inodeRef s s' t f (removeTo + 1) t' := by
        refine (hcut.removed ok hcnt (Nat.le_max_right _ _) fun v hv hvlt => ?_).after_reads h₁
        refine hloc.free_before ok hfirst hv ?_
        rw [first_extent]
        omega
      rw [wp_ite]
      constructor
      · intro hmax
        refine ⟨fun _ h => (by cases h), d', t', ?_⟩
        have heq : removeTo = last := by omega
        rw [Option.getD_none, Nat.min_self, ← heq]
        exact hrem
      · intro _
        refine ⟨fun next h => ?_, d', t', ?_⟩
        · obtain rfl := Option.some.inj h
          omega
        · rw [Option.getD_some, Nat.min_eq_left (by omega)]
          exact hrem
    · rintro err s' (⟨h₂, hfail⟩ | hfail)
      · exact .of_io hold (h₁.trans h₂) (by omega) (hfail.io.earlier h₁.suffix)
      · exact Or.inr (hfail.interrupted.earlier h₁.suffix)

/-! ## The loop -/

/-- Behind blocks that were taken off the map no extent reaches out on both sides. -/
theorem Removed.not_straddled (h : Removed inodeRef s s' t a (min n z) t') (hlt : a < n) (hle : n ≤ z) :
    ¬ Straddled t'.items n z := by
  rintro ⟨e, he, hfirst, hstop⟩
  have hvalue : valueAt Ext4Extent.blockAt t'.items (n - 1) = some (e.blockAt (n - 1)) :=
    valueAt_of_mem (SepTree.items_sorted h.ok.sorted) he (by omega) (by omega)
  rw [h.values, if_pos (by omega)] at hvalue
  cases hvalue

theorem RemoveFailed.after (h : Removed inodeRef s s₁ t a (min n z) t₁) (hlt : a < n)
    (h' : RemoveFailed inodeRef s₁ s' t₁ n z err) : RemoveFailed inodeRef s s' t a z err := by
  have hsuffix := h.settled.suffix
  rcases h' with ⟨m, hnm, hmz, ⟨d', t', hrem⟩, hcause⟩ | h'
  · refine Or.inl ⟨m, by omega, hmz, ⟨d', t', h.trans hrem (Nat.le_of_lt hlt) hmz (Or.inr hnm)⟩,
      Or.inl ?_⟩
    rcases hcause with hio | ⟨rfl, hstraddled⟩
    · exact hio.earlier hsuffix
    · exact absurd hstraddled (h.not_straddled hlt hmz)
  · exact Or.inr (h'.earlier hsuffix)

/-- The rounds, by induction on how many may follow: each starts further on. -/
theorem wp_removeSpaceLoop (hw : WritesSucceed inodeRef) (hmiss : NeverMissing inodeRef)
    (hcnt : inodeRef.blocksCnt ≤ pblockLimit) (hlast : last ≤ uint32Max) (fuel : ℕ) :
    ∀ {d f : ℕ} {t : SepTree Ext4Extent d} {s : St}, Holding inodeRef .built (refs t) s t →
      last + 1 - f < fuel →
      wp (removeSpaceLoop inodeRef last fuel f)
        (fun _ s' => ∃ (d' : ℕ) (t' : SepTree Ext4Extent d'),
          Removed inodeRef s s' t f (last + 1) t')
        (fun err s' => RemoveFailed inodeRef s s' t f (last + 1) err) s := by
  induction fuel with
  | zero =>
      intro d f t s _ hlt
      exact absurd hlt (Nat.not_lt_zero _)
  | succ fuel ih =>
      intro d f t s hold hlt
      unfold removeSpaceLoop
      rw [wp_ite]
      constructor
      · intro hle
        rw [wp_bind]
        refine wp_mono (wp_removeSpaceStep hw hmiss hcnt hold hle hlast) ?_ fun _ _ h => h
        rintro (_ | next) s₁ ⟨hnext, d', t₁, hrem⟩
        · rw [Option.getD_none, Nat.min_self] at hrem
          exact ⟨d', t₁, hrem⟩
        · have hgt := hnext next rfl
          rw [Option.getD_some] at hrem
          refine wp_mono (ih (hrem.holding hold) (by omega)) ?_ ?_
          · rintro _ s' ⟨d'', t', hrem'⟩
            exact ⟨d'', t', hrem.trans hrem' (Nat.le_of_lt hgt) (Nat.le_refl _) (Or.inl rfl)⟩
          · exact fun err s' hfail => hfail.after hrem hgt
      · intro hgt
        exact ⟨d, t, .of_reads (.refl s) hold.rep hold.ok fun v h₁ h₂ => by omega⟩

/-- `ext4_extent_remove_space`, on a tree the code built. -/
theorem wp_removeSpace {first last : UInt32} {fuel : ℕ} (hw : WritesSucceed inodeRef)
    (hmiss : NeverMissing inodeRef) (hcnt : inodeRef.blocksCnt ≤ pblockLimit)
    (hold : Holding inodeRef .built (refs t) s t) (hfuel : last.toNat + 1 - first.toNat < fuel) :
    wp (ext4ExtentRemoveSpace inodeRef fuel first last)
      (fun _ s' => ∃ (d' : ℕ) (t' : SepTree Ext4Extent d'),
        Removed inodeRef s s' t first.toNat (last.toNat + 1) t')
      (fun err s' => s' = s ∧ inodeRef.inTransaction = false ∨
        RemoveFailed inodeRef s s' t first.toNat (last.toNat + 1) err) s := by
  unfold ext4ExtentRemoveSpace
  rw [wp_bind, wp_requireJournaledMutation]
  constructor
  · intro _
    have hlast : last.toNat ≤ uint32Max := Nat.le_of_lt_succ last.toNat_lt
    have hloop := wp_removeSpaceLoop hw hmiss hcnt hlast fuel hold hfuel
    exact wp_mono hloop (fun _ _ h => h) fun _ _ h => Or.inr h
  · exact fun hno => Or.inl ⟨rfl, hno⟩

end Lemmas

/-- The blocks from `first` to `last` were taken off the map, all others kept, and the tree is
well formed. -/
structure RemovesExactly (s s' : St) (first last : ℕ) : Prop where
  wellFormed : WellFormed inodeRef s'.bytes
  gone : ∀ v, first ≤ v → v ≤ last → s'.bytes.mapping v = none
  kept : ∀ v, ¬ (first ≤ v ∧ v ≤ last) → s'.bytes.mapping v = s.bytes.mapping v
  lookups : ∀ lblock : UInt32, Resolves inodeRef s' lblock.toNat (s'.bytes.mapping lblock.toNat)
  empty : s'.bytes.root.items = [] → s'.bytes.rootDepth = 0 ∧ s'.bytes.slots .root = []

section Lemmas

variable {inodeRef} {s s' : St} {d d' a z : ℕ} {D : Disk} {t : SepTree Ext4Extent d}
variable {t' : SepTree Ext4Extent d'}

/-- A well-formed tree without extents is an empty root. -/
theorem WellFormed.empty_root (h : WellFormed inodeRef D) (hnil : D.root.items = []) :
    D.rootDepth = 0 ∧ D.slots .root = [] := by
  have hdepth : D.rootDepth = 0 := h.bushy.resolve_right fun hb => Ctx.items_ne_nil_of_bushy hb hnil
  exact ⟨hdepth, (items_of_leaf hdepth).symm.trans hnil⟩

theorem Removed.wellFormed (h : Removed inodeRef s s' t a z t')
    (hstop : ∀ e ∈ t.items, stop e ≤ uint32Max) : WellFormed inodeRef s'.bytes := by
  refine wellFormed_of_treeOk h.rep h.ok fun e he => ?_
  obtain ⟨x, hx, -, hle⟩ := h.within e he
  exact Nat.le_trans hle (hstop x hx)

theorem Removed.mapping (h : Removed inodeRef s s' s.bytes.root a z t') (v : ℕ) :
    s'.bytes.mapping v = if a ≤ v ∧ v < z then none else s.bytes.mapping v := by
  rw [Disk.mapping_eq_valueAt, Disk.mapping_eq_valueAt, h.rep.items_root h.ok.addr, h.values]

end Lemmas

/-- **A range is removed exactly.** On a well-formed tree, where only calls that obtain a block may
fail and the allocator hands out only free blocks of the volume that the tree does not refer to:
when `ext4_extent_remove_space` returns `EOK`, no block of the range is mapped, every other
block keeps its mapping, and the tree is well formed; without extents it is an empty root. -/
theorem space_removed_exactly (inodeRef : InodeRef) (s : St) (first last : UInt32) (fuel : ℕ)
    (hw : WritesSucceed inodeRef) (hmiss : NeverMissing inodeRef)
    (hcnt : inodeRef.blocksCnt ≤ pblockLimit) (h : WellFormed inodeRef s.bytes)
    (hout : HandsOut inodeRef (refs s.bytes.root) s.trace)
    (hfuel : last.toNat + 1 - first.toNat < fuel) :
    wp (ext4ExtentRemoveSpace inodeRef fuel first last)
      (fun _ s' => RemovesExactly inodeRef s s' first.toNat last.toNat) (fun _ _ => True) s := by
  have hold : Holding inodeRef .built (refs s.bytes.root) s s.bytes.root :=
    ⟨h.rep, h.treeOk, fun _ ha => Multiset.mem_add.mpr (Or.inl ha), hout⟩
  refine wp_mono (wp_removeSpace hw hmiss hcnt hold hfuel) ?_ fun _ _ _ => trivial
  rintro _ s' ⟨d', t', hrem⟩
  have hwf := hrem.wellFormed fun e he => (h.extents e he).stop_le
  refine ⟨hwf, fun v h₁ h₂ => ?_, fun v hv => ?_, hwf.resolves, hwf.empty_root⟩
  · rw [hrem.mapping, if_pos ⟨h₁, Nat.lt_succ_of_le h₂⟩]
  · rw [hrem.mapping, if_neg fun hin => hv ⟨hin.1, Nat.le_of_lt_succ hin.2⟩]

theorem refs_keyGapDisk : ∀ b ∈ refs keyGapDisk.root, b < 300 := by
  intro b hb
  rcases Multiset.mem_add.mp hb with hb | hb
  · exact below_keyGapDisk b hb
  · obtain ⟨e, he, hb⟩ := mem_dataBlocks.mp hb
    have hall : ∀ e ∈ keyGapDisk.root.items, e = ⟨0, 1, 0, 200⟩ ∨ e = ⟨100, 1, 0, 201⟩ := by
      decide +kernel
    have hrun : e.run = {200} ∨ e.run = {201} := by
      rcases hall e he with rfl | rfl
      · exact Or.inl rfl
      · exact Or.inr rfl
    rcases hrun with hrun | hrun
    · rw [hrun, Multiset.mem_singleton] at hb
      omega
    · rw [hrun, Multiset.mem_singleton] at hb
      omega

/-- The only extent of a leaf goes, and the leaf with it. -/
theorem space_removed_exactly_leaf :
    wp (ext4ExtentRemoveSpace (sampleVolume risingLwext4) 2 0 0)
      (fun _ s' => RemovesExactly (sampleVolume risingLwext4) ⟨keyGapDisk, false, []⟩ s'
        (UInt32.toNat 0) (UInt32.toNat 0)) (fun _ _ => True) ⟨keyGapDisk, false, []⟩ := by
  have hio : IoSucceeds (sampleVolume risingLwext4) := fun _ _ => rfl
  exact space_removed_exactly (sampleVolume risingLwext4) ⟨keyGapDisk, false, []⟩ 0 0 2 hio.writes
    hio.neverMissing (by decide) wellFormed_keyGapDisk (handsOut_rising refs_keyGapDisk) (by decide)

end EspLwext4
