import EspLwext4.Lib.RangeMap
import EspLwext4.Extent.Room
import EspLwext4.Extent.Trim

/-!
# What the extents of a tree say

The extents of a tree as a map from logical blocks to physical ones, and as the data
blocks they hold. `merge_extent` joins two extents that touch, logically and physically,
so neither changes.
-/

namespace EspLwext4

open Prog Bytes Ranged

variable (inodeRef : InodeRef)

/-- Where the extent has the logical block `lblock`, and whether it is unwritten. -/
def Ext4Extent.blockAt (e : Ext4Extent) (lblock : ℕ) : ℕ × Bool :=
  (extentGetPblock e + (lblock - first e), extentIsUnwritten e)

/-- The physical blocks of an extent. -/
def Ext4Extent.run (e : Ext4Extent) : Multiset ℕ :=
  blockRun (extentGetPblock e) (extentGetActualLen e)

/-- The physical blocks of some extents. -/
def dataBlocks (es : List Ext4Extent) : Multiset ℕ := (es.map Ext4Extent.run).sum

/-- `merge_extent` makes `z` of `x` and `y`, which touch. -/
structure Merges (x y z : Ext4Extent) : Prop where
  pos : first x < stop x
  canMerge : canMerge x y = true
  touch : stop x = first y
  eq : z = mergedExtent x y

/-- A new extent between those of a tree: written, in range and apart from them. -/
structure Insertable (new : Ext4Extent) (es : List Ext4Extent) : Prop where
  fits : new.Fits
  inRange : extentInRange inodeRef new = true
  written : extentIsUnwritten new = false
  apart : ∀ e ∈ es, stop e ≤ first new ∨ stop new ≤ first e

/-- Where `can_merge`, in 32 bits, takes the new extent for the continuation of the first one
of a tree, it is. -/
def Continues (new : Ext4Extent) (es : List Ext4Extent) : Prop :=
  ∀ e ∈ es.head?, canMerge e new = true → stop e = first new

/-- A new extent of blocks of the volume, wherever it lies. -/
structure Fresh (new : Ext4Extent) : Prop where
  fits : new.Fits
  written : extentIsUnwritten new = false
  pos : 0 < extentGetActualLen new
  physical : 0 < extentGetPblock new ∧
    extentGetPblock new + extentGetActualLen new ≤ inodeRef.blocksCnt

/-- There is a place for the new extent among those of a tree. -/
structure Belongs (new : Ext4Extent) (es : List Ext4Extent) : Prop where
  insertable : Insertable inodeRef new es
  continues : Continues new es

section Lemmas

variable {inodeRef} {e x y z new : Ext4Extent} {es es' l r : List Ext4Extent} {D : Disk}
variable {g : Grade} {d lblock : ℕ} {t : SepTree Ext4Extent d}

theorem Disk.mapping_eq_valueAt (D : Disk) (lblock : ℕ) :
    D.mapping lblock = valueAt Ext4Extent.blockAt D.root.items lblock := by
  unfold Disk.mapping valueAt Covers
  rfl

@[simp] theorem dataBlocks_nil : dataBlocks [] = 0 := rfl

theorem dataBlocks_cons : dataBlocks (e :: es) = e.run + dataBlocks es := by
  unfold dataBlocks
  rw [List.map_cons, List.sum_cons]

theorem dataBlocks_append : dataBlocks (l ++ r) = dataBlocks l + dataBlocks r := by
  unfold dataBlocks
  rw [List.map_append, List.sum_append]

theorem mem_dataBlocks {b : ℕ} : b ∈ dataBlocks es ↔ ∃ e ∈ es, b ∈ e.run := by
  induction es with
  | nil => simp
  | cons e es ih => rw [dataBlocks_cons, Multiset.mem_add, ih]; simp

/-- The entries of the leaves are as they were read from the disk. -/
theorem Rep.items_fits (h : Rep inodeRef g D t) : ∀ e ∈ t.items, e.Fits := by
  induction t with
  | leaf b es =>
      have hes : D.slots (Place.of b) = es := h.self.entries
      subst hes
      exact Disk.slots_fits
  | node b cs ih =>
      intro e he
      obtain ⟨c, hc, he⟩ := List.mem_flatMap.mp he
      exact ih c hc ((SepTree.all_node.mp h).2 c hc) e he

/-! ## Merging -/

theorem mergedExtent_eq (x y : Ext4Extent) :
    mergedExtent x y = x.withLen (u16 (extentGetActualLen x + extentGetActualLen y)) := by
  unfold mergedExtent Ext4Extent.withLen
  split <;> rfl

/-- What `can_merge` asks for. -/
theorem canMerge_iff : canMerge x y = true ↔
    extentIsUnwritten x = extentIsUnwritten y ∧
      u32 (x.firstBlock + extentGetActualLen x) = y.firstBlock ∧
      extentGetActualLen x + extentGetActualLen y ≤
        (if extentIsUnwritten x then extInitMaxLen - 1 else extInitMaxLen) ∧
      extentGetPblock x + extentGetActualLen x = extentGetPblock y := by
  unfold canMerge
  dsimp only
  split_ifs <;> simp_all

section CanMerge

variable (h : canMerge x y = true)

include h

theorem canMerge_sum_le : extentGetActualLen x + extentGetActualLen y ≤ 32768 := by
  have hle := (canMerge_iff.mp h).2.2.1
  split at hle <;> unfold extInitMaxLen at hle <;> omega

theorem canMerge_sum_lt (hu : extentIsUnwritten x = true) :
    extentGetActualLen x + extentGetActualLen y < 32768 := by
  have hle := (canMerge_iff.mp h).2.2.1
  rw [if_pos hu] at hle
  unfold extInitMaxLen at hle
  omega

theorem mergedExtent_withLen :
    mergedExtent x y = x.withLen (extentGetActualLen x + extentGetActualLen y) := by
  have hsum := canMerge_sum_le h
  rw [mergedExtent_eq, u16_of_lt (by omega)]

theorem mergedExtent_fits (hx : x.Fits) : (mergedExtent x y).Fits := by
  rw [mergedExtent_withLen h]
  exact Ext4Extent.withLen_fits hx (canMerge_sum_le h) (canMerge_sum_lt h)

theorem first_mergedExtent : first (mergedExtent x y) = first x := by
  rw [mergedExtent_withLen h, first_extent, Ext4Extent.withLen_firstBlock]
  rfl

theorem stop_mergedExtent (hpos : first x < stop x) :
    stop (mergedExtent x y) = stop x + extentGetActualLen y := by
  have hfirst := first_mergedExtent h
  rw [first_extent, first_extent] at hfirst
  rw [first_extent, stop_extent] at hpos
  rw [stop_extent, stop_extent, hfirst, mergedExtent_withLen h,
    Ext4Extent.len_withLen (by omega) (canMerge_sum_le h) (canMerge_sum_lt h), Nat.add_assoc]

/-- In 32 bits an extent that ends at 2^32 is continued at 0. -/
theorem touch_or_wraps (hx : extentInRange inodeRef x = true) :
    stop x = first y ∨ stop x = 4294967296 ∧ first y = 0 := by
  obtain ⟨-, hstop, -⟩ := extentInRange_iff.mp hx
  have htouch : u32 (stop x) = first y := (canMerge_iff.mp h).2.1
  rcases Nat.lt_or_eq_of_le hstop with hlt | heq
  · exact Or.inl ((u32_of_lt hlt).symm.trans htouch)
  · have hstop : stop x = 4294967296 := heq
    rw [hstop] at htouch
    exact Or.inr ⟨heq, htouch.symm⟩

end CanMerge

section Merges

variable (h : Merges x y z)

include h

theorem Merges.withLen : z = x.withLen (extentGetActualLen x + extentGetActualLen y) :=
  h.eq.trans (mergedExtent_withLen h.canMerge)

theorem Merges.len : extentGetActualLen z = extentGetActualLen x + extentGetActualLen y := by
  have hpos := h.pos
  rw [first_extent, stop_extent] at hpos
  rw [h.withLen]
  exact Ext4Extent.len_withLen (by omega) (canMerge_sum_le h.canMerge) (canMerge_sum_lt h.canMerge)

theorem Merges.firstBlock : z.firstBlock = x.firstBlock := by
  rw [h.withLen, Ext4Extent.withLen_firstBlock]

theorem Merges.pblock : extentGetPblock z = extentGetPblock x := by
  rw [h.withLen, Ext4Extent.withLen_pblock]

theorem Merges.unwritten : extentIsUnwritten z = extentIsUnwritten x := by
  have hpos := h.pos
  rw [first_extent, stop_extent] at hpos
  rw [h.withLen]
  exact Ext4Extent.unwritten_withLen (by omega) (canMerge_sum_le h.canMerge)
    (canMerge_sum_lt h.canMerge)

theorem Merges.joins : Joins Ext4Extent.blockAt x y z := by
  have htouch := h.touch
  have hlen := h.len
  have hpblock := (canMerge_iff.mp h.canMerge).2.2.2
  have hunwritten := (canMerge_iff.mp h.canMerge).1
  refine ⟨h.firstBlock, htouch, ?_, fun v _ _ => ?_, fun v hv _ => ?_⟩
  · rw [stop_extent, stop_extent, h.firstBlock, hlen]
    rw [first_extent, stop_extent] at htouch
    omega
  · unfold Ext4Extent.blockAt
    rw [h.pblock, h.unwritten, first_extent, first_extent, h.firstBlock]
  · unfold Ext4Extent.blockAt
    rw [h.pblock, h.unwritten, hunwritten, ← hpblock]
    rw [first_extent, stop_extent] at htouch
    rw [first_extent] at hv
    rw [first_extent, first_extent, h.firstBlock]
    have hoff : extentGetPblock x + (v - x.firstBlock) =
        extentGetPblock x + extentGetActualLen x + (v - y.firstBlock) := by omega
    rw [hoff]

theorem Merges.run : z.run = x.run + y.run := by
  have hpblock := (canMerge_iff.mp h.canMerge).2.2.2
  unfold Ext4Extent.run
  rw [h.pblock, h.len, blockRun_add, hpblock]

/-- A joined extent is in range when its parts are. -/
theorem Merges.inRange (hx : extentInRange inodeRef x = true) (hy : extentInRange inodeRef y = true) :
    extentInRange inodeRef z = true := by
  have htouch := h.touch
  rw [first_extent, stop_extent] at htouch
  have hpblock := (canMerge_iff.mp h.canMerge).2.2.2
  obtain ⟨hx₁, -, hx₃, -⟩ := extentInRange_iff.mp hx
  obtain ⟨-, hy₂, -, hy₄⟩ := extentInRange_iff.mp hy
  refine extentInRange_iff.mpr ?_
  rw [h.firstBlock, h.pblock, h.len]
  omega

end Merges

/-! ## A new extent among the others -/

theorem Insertable.mono (h : Insertable inodeRef new es) (hle : ∀ e ∈ es', e ∈ es) :
    Insertable inodeRef new es' :=
  ⟨h.fits, h.inRange, h.written, fun e he => h.apart e (hle e he)⟩

theorem Insertable.pos (h : Insertable inodeRef new es) : first new < stop new :=
  first_lt_stop h.inRange

/-- The extents at or before the start of the new one end there. -/
theorem Insertable.stop_le (h : Insertable inodeRef new es) (he : e ∈ es)
    (hle : first e ≤ first new) : stop e ≤ first new := by
  have hpos := h.pos
  rcases h.apart e he with hstop | hfirst
  · exact hstop
  · exact absurd (Nat.lt_of_lt_of_le hpos hfirst) (Nat.not_lt.mpr hle)

/-- Those that reach behind its start lie behind it. -/
theorem Insertable.le_first (h : Insertable inodeRef new es) (he : e ∈ es)
    (hlt : first new < stop e) : stop new ≤ first e :=
  (h.apart e he).resolve_left (Nat.not_le.mpr hlt)

/-- `can_merge` takes an extent that lies behind another for its continuation only if it is. -/
theorem stop_eq_of_canMerge (he : e.Fits) (hle : stop new ≤ first e)
    (hmerge : canMerge new e = true) : stop new = first e := by
  have htouch := (canMerge_iff.mp hmerge).2.1
  have hfirst := he.firstBlock
  rw [first_extent, stop_extent] at hle ⊢
  rwa [u32_of_lt (by omega)] at htouch

/-! ## Where it belongs -/

section Fresh

variable (h : Fresh inodeRef new) (hrange : ∀ e ∈ es, extentInRange inodeRef e = true)

omit h in
include hrange in
/-- Behind block 0 `can_merge` is right. -/
theorem continues_of_pos (hpos : 0 < first new) : Continues new es := fun e he hmerge =>
  (touch_or_wraps hmerge (hrange e (List.mem_of_head? he))).resolve_right fun hwraps =>
    absurd hwraps.2 (Nat.pos_iff_ne_zero.mp hpos)

include h

theorem Fresh.first_lt : first new < stop new := by
  have hpos := h.pos
  rw [first_extent, stop_extent]
  omega

theorem Fresh.insertable (hstop : stop new ≤ 4294967296)
    (hapart : ∀ e ∈ es, stop e ≤ first new ∨ stop new ≤ first e) : Insertable inodeRef new es :=
  ⟨h.fits, extentInRange_iff.mpr ⟨h.pos, hstop, h.physical⟩, h.written, hapart⟩

include hrange

/-- A slot of its own, among entries that are in range and apart. -/
theorem Fresh.belongs_own (hes : es = l ++ r) (hapart : Apart es)
    (hsole : ∀ e, es = [e] → canMerge e new = false)
    (hin : ∀ e ∈ l ++ new :: r, extentInRange inodeRef e = true) (hap : Apart (l ++ new :: r)) :
    Belongs inodeRef new es := by
  obtain ⟨-, hright, hcross⟩ := List.pairwise_append.mp hap
  refine ⟨h.insertable (extentInRange_iff.mp (hin new (by simp))).2.1 fun e he => ?_,
    fun e he hmerge => ?_⟩
  · rw [hes, List.mem_append] at he
    rcases he with he | he
    · exact Or.inl (hcross e he new (by simp))
    · exact Or.inr ((List.pairwise_cons.mp hright).1 e he)
  · refine (touch_or_wraps hmerge (hrange e (List.mem_of_head? he))).resolve_right ?_
    rintro ⟨hstop, -⟩
    -- an extent that ends at 2^32 is the last one
    obtain ⟨es, rfl⟩ : ∃ es', es = e :: es' := ⟨es.tail, List.eq_cons_of_mem_head? he⟩
    have hlast : es = [] := by
      refine List.eq_nil_iff_forall_not_mem.mpr fun e' he' => ?_
      have hle : stop e ≤ first e' := (List.pairwise_cons.mp hapart).1 e' he'
      have hlt := first_lt_stop (hrange e' (List.mem_cons_of_mem e he'))
      have hend := (extentInRange_iff.mp (hrange e' (List.mem_cons_of_mem e he'))).2.1
      rw [stop_extent] at hlt
      omega
    rw [hsole e (by rw [hlast])] at hmerge
    cases hmerge

/-- Merged into the extent in front of it. -/
theorem Fresh.belongs_left (hes : es = l ++ x :: r) (hmerge : canMerge x new = true)
    (hin : ∀ e ∈ l ++ mergedExtent x new :: r, extentInRange inodeRef e = true)
    (hap : Apart (l ++ mergedExtent x new :: r)) : Belongs inodeRef new es := by
  have hx := hrange x (by simp [hes])
  have hpos := first_lt_stop hx
  have hlen := h.pos
  have hend : stop (mergedExtent x new) ≤ 4294967296 :=
    (extentInRange_iff.mp (hin _ (by simp))).2.1
  have hstop := stop_mergedExtent hmerge hpos
  have hfirst := first_mergedExtent hmerge
  have htouch : stop x = first new :=
    (touch_or_wraps hmerge hx).resolve_right fun hwraps => by omega
  have hnew : stop new = stop (mergedExtent x new) := by
    rw [hstop, htouch]
    rfl
  obtain ⟨-, hright, hcross⟩ := List.pairwise_append.mp hap
  refine ⟨h.insertable (hnew ▸ hend) fun e he => ?_, continues_of_pos hrange (by omega)⟩
  rw [hes, List.mem_append, List.mem_cons] at he
  rcases he with he | rfl | he
  · have := hcross e he _ List.mem_cons_self
    exact Or.inl (by omega)
  · exact Or.inl (Nat.le_of_eq htouch)
  · exact Or.inr (hnew ▸ (List.pairwise_cons.mp hright).1 e he)

/-- Merged into the extent behind it. -/
theorem Fresh.belongs_right (hes : es = l ++ y :: r) (h0 : 0 < first new)
    (hmerge : canMerge new y = true)
    (hin : ∀ e ∈ l ++ mergedExtent new y :: r, extentInRange inodeRef e = true)
    (hap : Apart (l ++ mergedExtent new y :: r)) : Belongs inodeRef new es := by
  have hy := (extentInRange_iff.mp (hrange y (by simp [hes]))).1
  have hpos := h.first_lt
  have hend : stop (mergedExtent new y) ≤ 4294967296 :=
    (extentInRange_iff.mp (hin _ (by simp))).2.1
  have hstop := stop_mergedExtent hmerge hpos
  have hfirst := first_mergedExtent hmerge
  have hlt : stop new < 4294967296 := by omega
  have htouch : stop new = first y := by
    have htouch : u32 (stop new) = first y := (canMerge_iff.mp hmerge).2.1
    rwa [u32_of_lt hlt] at htouch
  obtain ⟨-, hright, hcross⟩ := List.pairwise_append.mp hap
  refine ⟨h.insertable (Nat.le_of_lt hlt) fun e he => ?_, continues_of_pos hrange h0⟩
  rw [hes, List.mem_append, List.mem_cons] at he
  rcases he with he | rfl | he
  · have := hcross e he _ List.mem_cons_self
    exact Or.inl (by omega)
  · exact Or.inr (Nat.le_of_eq htouch)
  · have := (List.pairwise_cons.mp hright).1 e he
    exact Or.inr (by omega)

end Fresh

section Inserted

variable (h : Inserted Merges new es es')

include h

theorem Insertable.inserted_inRange (hnew : Insertable inodeRef new es)
    (hes : ∀ e ∈ es, extentInRange inodeRef e = true) : ∀ e ∈ es', extentInRange inodeRef e = true :=
  h.forall (fun _ _ _ hm hx hy => hm.inRange hx hy) hnew.inRange hes

theorem Insertable.inserted_apart (hnew : Insertable inodeRef new es) (hes : Apart es) :
    Apart es' :=
  h.apart (fun _ _ _ hm => hm.joins) (Nat.le_of_lt hnew.pos) hes

/-- The new extent adds its blocks to the map and changes no other. -/
theorem Insertable.inserted_valueAt (hnew : Insertable inodeRef new es)
    (hes : ∀ e ∈ es, extentInRange inodeRef e = true) (v : ℕ) :
    valueAt Ext4Extent.blockAt es' v = if first new ≤ v ∧ v < stop new then some (new.blockAt v)
      else valueAt Ext4Extent.blockAt es v :=
  h.valueAt_eq (fun _ _ _ hm => hm.joins) (Nat.le_of_lt hnew.pos)
    fun e he => Nat.le_of_lt (first_lt_stop (hes e he))

theorem inserted_dataBlocks : dataBlocks es' = new.run + dataBlocks es :=
  h.sum_eq fun _ _ _ hm => hm.run

/-- No extent ends further out than the others and the new one. -/
theorem inserted_stop_le {n : ℕ} (hnew : stop new ≤ n) (hes : ∀ e ∈ es, stop e ≤ n) :
    ∀ e ∈ es', stop e ≤ n :=
  h.forall (fun _ _ _ hm _ hy => hm.joins.finish ▸ hy) hnew hes

end Inserted

end Lemmas

end EspLwext4
