import EspLwext4.Extent.Content

/-!
# Blocks cut out of an extent

What `remove_leaf` and `remove_middle_of_extent` leave of an extent are its parts in front
of and behind the range that goes. They map what they mapped before, and hold all the data
blocks but those of the range.
-/

namespace EspLwext4

open Prog Bytes Ranged

variable (inodeRef : InodeRef) (g : Grade)

/-- The `n` blocks of `e` from its block `i` on. -/
def Ext4Extent.part (e : Ext4Extent) (i n : ℕ) : Ext4Extent :=
  Ext4Extent.withLen
    (extentStorePblock { e with firstBlock := e.firstBlock + i } (extentGetPblock e + i)) n

/-- What is left of `e` without its blocks from `a` on and before `b`. -/
def Ext4Extent.parts (e : Ext4Extent) (a b : ℕ) : List Ext4Extent :=
  (if first e < a then [e.part 0 (a - first e)] else []) ++
    (if b < stop e then [e.part (b - first e) (stop e - b)] else [])

/-- The data blocks of `e` from `a` on and before `b`. -/
def Ext4Extent.runBetween (e : Ext4Extent) (a b : ℕ) : Multiset ℕ :=
  blockRun (extentGetPblock e + (a - first e)) (b - a)

/-- `ys` is what is left of the good extent `x` without its blocks from `a` on and before
`b`. -/
structure CutTo (a b : ℕ) (x : Ext4Extent) (ys : List Ext4Extent) : Prop where
  fits : x.Fits
  inRange : extentInRange inodeRef x = true
  start : first x ≤ a
  lt : a < b
  finish : b ≤ stop x
  eq : ys = x.parts a b

/-- The entries `es` of a leaf become `es'`, not empty, when blocks of one of them are taken out;
the first block left is `v`. With `front` that was the first entry. -/
structure LeafCut (a z : ℕ) (es es' : List Ext4Extent) (front : Bool) (v : ℕ) : Prop where
  replaced : Replaced (CutTo inodeRef a z) es es'
  head : es'.head?.map first = some v
  same_head : front = false → es.head?.map first = some v

section Lemmas

variable {inodeRef g} {e x y : Ext4Extent} {a b i n : ℕ} {es es' ys : List Ext4Extent}

section Part

variable (hf : e.Fits) (hr : extentInRange inodeRef e = true)
  (hcnt : inodeRef.blocksCnt ≤ pblockLimit) (h0 : 0 < n) (hin : i + n ≤ extentGetActualLen e)

@[simp] theorem Ext4Extent.part_firstBlock : (e.part i n).firstBlock = e.firstBlock + i := by
  unfold part
  rw [withLen_firstBlock]
  rfl

theorem Ext4Extent.first_part : first (e.part i n) = first e + i := part_firstBlock

include hf hin

theorem part_len_le : n ≤ 32768 ∧ (extentIsUnwritten e = true → n < 32768) := by
  have hlen := e.len_le hf
  refine ⟨by omega, fun hu => ?_⟩
  have := Ext4Extent.len_lt_of_unwritten hf hu
  omega

include h0 in
theorem Ext4Extent.part_len : extentGetActualLen (e.part i n) = n :=
  len_withLen h0 (part_len_le hf hin).1 (part_len_le hf hin).2

include h0 in
theorem Ext4Extent.part_unwritten : extentIsUnwritten (e.part i n) = extentIsUnwritten e :=
  unwritten_withLen h0 (part_len_le hf hin).1 (part_len_le hf hin).2

omit hf in
include h0 hr hcnt in
theorem Ext4Extent.part_pblock : extentGetPblock (e.part i n) = extentGetPblock e + i := by
  obtain ⟨-, -, -, hend⟩ := extentInRange_iff.mp hr
  unfold part
  rw [withLen_pblock, extentGetPblock_store (by omega)]

include h0 hr in
theorem Ext4Extent.part_fits : (e.part i n).Fits := by
  obtain ⟨-, hstop, -, -⟩ := extentInRange_iff.mp hr
  refine withLen_fits ⟨?_, hf.blockCount, Nat.mod_lt _ (by decide), Nat.mod_lt _ (by decide)⟩
    (part_len_le hf hin).1 (part_len_le hf hin).2
  show e.firstBlock + i < 4294967296
  omega

include h0 hr hcnt in
theorem Ext4Extent.part_inRange : extentInRange inodeRef (e.part i n) = true := by
  obtain ⟨-, hstop, hpos, hend⟩ := extentInRange_iff.mp hr
  rw [extentInRange_iff, part_len hf h0 hin, part_pblock hr hcnt h0 hin, part_firstBlock]
  omega

include h0 hr hcnt in
theorem Ext4Extent.part_run : (e.part i n).run = blockRun (extentGetPblock e + i) n := by
  unfold Ext4Extent.run
  rw [part_len hf h0 hin, part_pblock hr hcnt h0 hin]

include h0 in
theorem Ext4Extent.stop_part : stop (e.part i n) = first e + i + n := by
  rw [stop_extent, part_len hf h0 hin, part_firstBlock]
  rfl

include h0 hr hcnt in
/-- A part maps its blocks where the whole did. -/
theorem Ext4Extent.blockAt_part {v : ℕ} (hv : first e + i ≤ v) :
    (e.part i n).blockAt v = e.blockAt v := by
  unfold Ext4Extent.blockAt
  rw [part_pblock hr hcnt h0 hin, part_unwritten hf h0 hin, first_extent, part_firstBlock,
    first_extent]
  rw [first_extent] at hv
  have hoff : extentGetPblock e + i + (v - (e.firstBlock + i)) =
      extentGetPblock e + (v - e.firstBlock) := by omega
  rw [hoff]

end Part

section Cut

variable (h : CutTo inodeRef a b x ys) (hcnt : inodeRef.blocksCnt ≤ pblockLimit)

include h

/-- What is left is a part. -/
theorem CutTo.exists_part (hy : y ∈ ys) : ∃ i n, y = x.part i n ∧ 0 < n ∧
    i + n ≤ extentGetActualLen x := by
  obtain ⟨-, -, hstart, hlt, hfinish, rfl⟩ := h
  rw [stop_extent] at hfinish
  rw [first_extent] at hstart
  rcases List.mem_append.mp hy with hy | hy
  · split at hy
    · rename_i hfirst
      rw [first_extent] at hfirst hy
      exact ⟨0, _, List.mem_singleton.mp hy, Nat.sub_pos_of_lt hfirst, by omega⟩
    · cases hy
  · split at hy
    · rename_i hstop
      rw [stop_extent] at hstop
      refine ⟨_, _, List.mem_singleton.mp hy, Nat.sub_pos_of_lt ?_, ?_⟩
      · exact hstop
      · rw [first_extent, stop_extent]
        omega
    · cases hy

theorem CutTo.fits_parts : ∀ y ∈ ys, y.Fits := by
  intro y hy
  obtain ⟨i, n, rfl, h0, hin⟩ := h.exists_part hy
  exact Ext4Extent.part_fits h.fits h.inRange h0 hin

include hcnt

theorem CutTo.inRange_parts : ∀ y ∈ ys, extentInRange inodeRef y = true := by
  intro y hy
  obtain ⟨i, n, rfl, h0, hin⟩ := h.exists_part hy
  exact Ext4Extent.part_inRange h.fits h.inRange hcnt h0 hin

theorem CutTo.values (v : ℕ) : valueAt Ext4Extent.blockAt ys v =
    if first x ≤ v ∧ v < stop x ∧ ¬ (a ≤ v ∧ v < b) then some (x.blockAt v) else none := by
  obtain ⟨hf, hr, hstart, hlt, hfinish, rfl⟩ := h
  have hstop := stop_extent x
  have hfirst := first_extent x
  have hlower : valueAt Ext4Extent.blockAt
      (if first x < a then [x.part 0 (a - first x)] else []) v =
        if first x ≤ v ∧ v < a then some (x.blockAt v) else none := by
    split
    · have h0 : 0 < a - first x := by omega
      have hin : 0 + (a - first x) ≤ extentGetActualLen x := by omega
      have hstop' := Ext4Extent.stop_part hf h0 hin
      rw [valueAt_singleton, hstop', Ext4Extent.first_part, add_zero, Nat.add_sub_cancel' hstart]
      refine ite_congr rfl (fun hv => ?_) fun _ => rfl
      rw [Ext4Extent.blockAt_part hf hr hcnt h0 hin (by omega)]
    · rw [valueAt_nil, if_neg (by omega)]
  have hupper : valueAt Ext4Extent.blockAt
      (if b < stop x then [x.part (b - first x) (stop x - b)] else []) v =
        if b ≤ v ∧ v < stop x then some (x.blockAt v) else none := by
    split
    · have h0 : 0 < stop x - b := by omega
      have hin : b - first x + (stop x - b) ≤ extentGetActualLen x := by omega
      have hstop' := Ext4Extent.stop_part hf h0 hin
      have hb : first x + (b - first x) = b := by omega
      have hend : b + (stop x - b) = stop x := by omega
      rw [valueAt_singleton, hstop', Ext4Extent.first_part, hb, hend]
      refine ite_congr rfl (fun hv => ?_) fun _ => rfl
      rw [Ext4Extent.blockAt_part hf hr hcnt h0 hin (by omega)]
    · rw [valueAt_nil, if_neg (by omega)]
  unfold Ext4Extent.parts
  rw [valueAt_append, hlower, hupper]
  by_cases h₁ : first x ≤ v ∧ v < a
  · have h₂ : ¬ (b ≤ v ∧ v < stop x) := by omega
    rw [if_pos h₁, if_neg h₂, if_pos (by omega)]
    rfl
  · by_cases h₂ : b ≤ v ∧ v < stop x
    · rw [if_neg h₁, if_pos h₂, if_pos (by omega)]
      rfl
    · rw [if_neg h₁, if_neg h₂, if_neg (by omega)]
      rfl

theorem CutTo.rest : Rest Ext4Extent.blockAt x a b ys := by
  refine ⟨h.start, h.finish, fun y hy => ?_, ?_, h.values hcnt⟩
  · obtain ⟨i, n, rfl, h0, hin⟩ := h.exists_part hy
    rw [Ext4Extent.stop_part h.fits h0 hin, Ext4Extent.first_part, first_extent, stop_extent]
    omega
  · obtain ⟨hf, hr, hstart, hlt, hfinish, rfl⟩ := h
    have hstop := stop_extent x
    have hfirst := first_extent x
    unfold Ext4Extent.parts
    refine List.pairwise_append.mpr ⟨?_, ?_, fun y hy z hz => ?_⟩
    · split <;> simp
    · split <;> simp
    · split at hy
      · split at hz
        · obtain rfl := List.mem_singleton.mp hy
          obtain rfl := List.mem_singleton.mp hz
          rw [Ext4Extent.stop_part hf (by omega) (by omega), Ext4Extent.first_part]
          omega
        · cases hz
      · cases hy

/-- The data blocks of an extent are those cut out and those left. -/
theorem CutTo.run_eq : x.run = x.runBetween a b + (ys.map Ext4Extent.run).sum := by
  obtain ⟨hf, hr, hstart, hlt, hfinish, rfl⟩ := h
  have hstop := stop_extent x
  have hfirst := first_extent x
  have hlower : ((if first x < a then [x.part 0 (a - first x)] else []).map Ext4Extent.run).sum =
      blockRun (extentGetPblock x) (a - first x) := by
    split
    · rw [List.map_singleton, List.sum_singleton,
        Ext4Extent.part_run hf hr hcnt (by omega) (by omega), add_zero]
    · rw [List.map_nil, List.sum_nil, show a - first x = 0 by omega, blockRun_zero]
  have hupper : ((if b < stop x then [x.part (b - first x) (stop x - b)] else []).map
      Ext4Extent.run).sum = blockRun (extentGetPblock x + (b - first x)) (stop x - b) := by
    split
    · rw [List.map_singleton, List.sum_singleton,
        Ext4Extent.part_run hf hr hcnt (by omega) (by omega)]
    · rw [List.map_nil, List.sum_nil, show stop x - b = 0 by omega, blockRun_zero]
  have hlen : extentGetActualLen x = (a - first x) + ((b - a) + (stop x - b)) := by omega
  have hmid : extentGetPblock x + (a - first x) + (b - a) = extentGetPblock x + (b - first x) := by
    omega
  have hrun : x.run = blockRun (extentGetPblock x) (extentGetActualLen x) := rfl
  unfold Ext4Extent.parts Ext4Extent.runBetween
  rw [List.map_append, List.sum_append, hlower, hupper, hrun, hlen, blockRun_add, blockRun_add, hmid]
  exact add_left_comm _ _ _

end Cut

/-! ## What the code leaves -/

theorem Ext4Extent.part_zero (hf : e.Fits) (n : ℕ) : e.part 0 n = e.withLen n := by
  have hself : extentStorePblock { e with firstBlock := e.firstBlock } (extentGetPblock e) = e :=
    extentStorePblock_self hf
  unfold part
  rw [Nat.add_zero, Nat.add_zero, hself]

/-- What `remove_leaf` keeps. -/
theorem Trims.parts_eq {f last : ℕ} (h : Trims e f last) :
    e.parts (max e.firstBlock f) (last + 1) = (e.trimmed f last).toList := by
  have hlower := h.lower
  have hsuffix := h.suffix
  have hupper := h.upper
  unfold Ext4Extent.parts Ext4Extent.trimmed
  rw [first_extent, stop_extent]
  by_cases hf : e.firstBlock < f
  · rw [if_pos hf, Nat.max_eq_right (Nat.le_of_lt hf), if_pos hf,
      if_neg (Nat.not_lt.mpr (Nat.le_of_eq (hsuffix hf).symm)), Ext4Extent.part_zero h.fits]
    rfl
  · rw [if_neg hf, Nat.max_eq_left (Nat.not_lt.mp hf), if_neg (Nat.lt_irrefl _)]
    by_cases hl : last + 1 < e.firstBlock + extentGetActualLen e
    · have hstart : e.firstBlock + (last + 1 - e.firstBlock) = last + 1 := by omega
      rw [if_pos hl, if_pos hl]
      unfold Ext4Extent.part
      rw [hstart]
      rfl
    · rw [if_neg hl, if_neg hl]
      rfl

theorem Trims.cutTo {f last : ℕ} (h : Trims e f last) (hr : extentInRange inodeRef e = true) :
    CutTo inodeRef (max e.firstBlock f) (last + 1) e (e.trimmed f last).toList := by
  have hlower := h.lower
  have hupper := h.upper
  have hcut := h.cut_lt
  refine ⟨h.fits, hr, Nat.le_max_left _ _, Nat.lt_succ_of_le hcut, hupper, h.parts_eq.symm⟩

/-- What `remove_middle_of_extent` keeps. -/
theorem splitAround_eq {f last : ℕ} (hf : e.Fits) (hr : extentInRange inodeRef e = true)
    (hlt : e.firstBlock < f) (hle : f ≤ last) (hlast : last + 1 < stop e) :
    [(splitAround e f last).1, (splitAround e f last).2] = e.parts f (last + 1) := by
  obtain ⟨-, hstop, -, -⟩ := extentInRange_iff.mp hr
  have hlen := e.len_le hf
  rw [stop_extent] at hlast
  have e₁ : sub32 f e.firstBlock = f - e.firstBlock := sub32_of_le (by omega) (by omega)
  have e₂ : u16 (f - e.firstBlock) = f - e.firstBlock := u16_of_lt (by omega)
  have e₃ : u32 (last + 1) = last + 1 := u32_of_lt (by omega)
  have e₄ : sub32 (last + 1) e.firstBlock = last + 1 - e.firstBlock :=
    sub32_of_le (by omega) (by omega)
  have e₅ : sub64 (sub64 (e.firstBlock + extentGetActualLen e) 1) last =
      e.firstBlock + extentGetActualLen e - (last + 1) := by
    unfold sub64
    omega
  have e₆ : u16 (e.firstBlock + extentGetActualLen e - (last + 1)) =
      e.firstBlock + extentGetActualLen e - (last + 1) := u16_of_lt (by omega)
  have hpre : (splitAround e f last).1 = e.part 0 (f - e.firstBlock) := by
    rw [Ext4Extent.part_zero hf]
    unfold splitAround
    dsimp only
    rw [e₁, e₂]
    rfl
  have hsuffix : (splitAround e f last).2 =
      e.part (last + 1 - e.firstBlock) (e.firstBlock + extentGetActualLen e - (last + 1)) := by
    have hstart : e.firstBlock + (last + 1 - e.firstBlock) = last + 1 := by omega
    unfold splitAround Ext4Extent.part
    dsimp only
    rw [e₃, e₄, e₅, e₆, hstart]
    rfl
  unfold Ext4Extent.parts
  rw [first_extent, stop_extent, if_pos hlt, if_pos hlast, hpre, hsuffix]
  rfl

/-! ## The tree around the leaf -/

section Tree

variable {d b v z : ℕ} {front : Bool} {t : SepTree Ext4Extent d} {c : Ctx Ext4Extent 0 d}

/-- Sorted entries have sorted bounds. -/
theorem marks_leaf_sorted (hes : Apart es) (hpos : ∀ e ∈ es, first e < stop e) :
    (SepTree.leaf b es).marks.Pairwise (· ≤ ·) := by
  rw [SepTree.marks_leaf, List.pairwise_flatMap]
  refine ⟨fun e he => ?_, List.Pairwise.imp_of_mem (fun {x y} hx hy hxy m hm m' hm' => ?_) hes⟩
  · exact List.pairwise_pair.mpr (Nat.le_of_lt (hpos e he))
  · have hx' := hpos x hx
    have hy' := hpos y hy
    simp only [List.mem_cons, List.not_mem_nil, or_false] at hm hm'
    omega

section Cut

variable (h : LeafCut inodeRef a z es es' front v) (hcnt : inodeRef.blocksCnt ≤ pblockLimit)
  (ok : TreeOk inodeRef g t) (hplug : c.plug (.leaf b es) = t)

include h hplug

theorem LeafCut.items : Replaced (CutTo inodeRef a z) t.items
    ((c.rekeyIf front v).plug (.leaf b es')).items := by
  rw [← hplug, Ctx.items_plug, Ctx.items_plug, Ctx.itemsLeft_rekeyIf, Ctx.itemsRight_rekeyIf]
  exact h.replaced.within

omit h in
theorem addrs_cut : ((c.rekeyIf front v).plug (.leaf b es')).addrs = t.addrs := by
  rw [← hplug, Ctx.addrs_plug, Ctx.addrs_plug, Ctx.addrs_rekeyIf]
  rfl

theorem LeafCut.exact (hex : t.Exact) : ((c.rekeyIf front v).plug (.leaf b es')).Exact := by
  obtain ⟨-, hc⟩ := (Ctx.all_plug c _).mp (hplug ▸ hex)
  refine (Ctx.all_plug _ _).mpr ⟨trivial, ?_⟩
  have hkeys : (SepTree.leaf b es').keys.head? = some v := by
    rw [SepTree.keys_leaf, List.head?_map]
    exact h.head
  rcases front with _ | _
  · refine Ctx.around_exact _ _ ?_ hc
    rw [hkeys, SepTree.keys_leaf, List.head?_map]
    exact h.same_head rfl
  · exact Ctx.around_exact_rekey hc hkeys

include hcnt ok

theorem LeafCut.treeOk : TreeOk inodeRef g ((c.rekeyIf front v).plug (.leaf b es')) := by
  have hitems := h.items hplug
  have hrest {x ys} (hx : CutTo inodeRef a z x ys) : Rest Ext4Extent.blockAt x a z ys := hx.rest hcnt
  have hrange : ∀ e ∈ ((c.rekeyIf front v).plug (.leaf b es')).items, extentInRange inodeRef e = true :=
    hitems.forall (fun _ _ hx _ => hx.inRange_parts hcnt) ok.inRange
  have hmem {y : Ext4Extent} (hy : y ∈ es') : y ∈ ((c.rekeyIf front v).plug (.leaf b es')).items := by
    rw [Ctx.items_plug]
    exact List.mem_append_left _ (List.mem_append_right _ hy)
  have hpos {y : Ext4Extent} (hy : y ∈ es') : first y < stop y := first_lt_stop (hrange y (hmem hy))
  have hinside := h.replaced.inside fun _ _ hx => hrest hx
  have hsorted : (c.plug (.leaf b es)).marks.Pairwise (· ≤ ·) := hplug ▸ ok.sorted
  have hmarks := hsorted
  rw [Ctx.marks_plug, List.pairwise_append, List.pairwise_append] at hmarks
  obtain ⟨⟨-, hleaf, hlo⟩, -, hhi⟩ := hmarks
  have hes : Apart es := SepTree.items_sorted (t := .leaf b es) hleaf
  have hes' : (SepTree.leaf b es').marks.Pairwise (· ≤ ·) :=
    marks_leaf_sorted (h.replaced.apart (fun _ _ hx => hrest hx) hes) fun y hy => hpos hy
  have hbound {e : Ext4Extent} (he : e ∈ es) :
      first e ∈ (SepTree.leaf b es).marks ∧ stop e ∈ (SepTree.leaf b es).marks :=
    ⟨List.mem_flatMap.mpr ⟨e, he, by simp⟩, List.mem_flatMap.mpr ⟨e, he, by simp⟩⟩
  have hhi' : ∀ m ∈ (SepTree.leaf b es').marks, ∀ m' ∈ c.post, m ≤ m' := by
    intro m hm m' hm'
    obtain ⟨y, hy, hm⟩ := List.mem_flatMap.mp hm
    obtain ⟨e, he, -, hstop⟩ := hinside y hy
    have hle := hhi _ (List.mem_append_right _ (hbound he).2) m' hm'
    have hlt := hpos hy
    simp only [List.mem_cons, List.not_mem_nil, or_false] at hm
    omega
  obtain ⟨y, hhead, hfirst⟩ := Option.map_eq_some_iff.mp h.head
  have hy : y ∈ es' := List.mem_of_head? hhead
  have hadmits : c.Admits v := by
    obtain ⟨e, he, hle, hstop⟩ := hinside y hy
    have hlt := hpos hy
    exact Ctx.admits_of_between hsorted ⟨_, (hbound he).1, by omega⟩ ⟨_, (hbound he).2, by omega⟩
  have haddrs : ((c.rekeyIf front v).plug (.leaf b es')).addrs = t.addrs := addrs_cut hplug
  refine ⟨?_, ?_, ?_, ?_, ?_, ?_, hrange⟩
  · have haddr := ok.addr
    rw [← hplug, Ctx.addr_plug] at haddr
    rw [Ctx.addr_plug, Ctx.rootAddr_rekeyIf]
    exact haddr
  · rw [haddrs]
    exact ok.nodup
  · rw [haddrs]
    exact ok.inside
  · rcases front with _ | _
    · refine Ctx.sorted_plug hsorted hes' (fun m hm m' hm' => ?_) hhi'
      obtain ⟨w, hw, hm'⟩ := List.mem_flatMap.mp hm'
      obtain ⟨e, he, hle, -⟩ := hinside w hw
      have hme := hlo m hm _ (hbound he).1
      have hlt := hpos hw
      simp only [List.mem_cons, List.not_mem_nil, or_false] at hm'
      omega
    · refine Ctx.sorted_rekey hsorted hadmits hes' (fun m hm => ?_) hhi'
      obtain ⟨es'', rfl⟩ := List.head?_eq_some_iff.mp hhead
      rw [SepTree.marks_leaf, List.flatMap_cons] at hes' hm
      have hle := (List.pairwise_cons.mp hes').1
      rcases List.mem_cons.mp hm with rfl | hm
      · exact Nat.le_of_eq hfirst.symm
      · exact hfirst ▸ hle m hm
  · obtain ⟨-, hc⟩ := (Ctx.all_plug c _).mp (hplug ▸ ok.ordered)
    refine (Ctx.all_plug _ _).mpr ⟨trivial, ?_⟩
    rcases front with _ | _
    · exact Ctx.around_ordered _ _ hc
    · exact Ctx.around_ordered_rekey hc hadmits
  · refine ok.bushy.imp id fun hb => ?_
    obtain ⟨-, hc⟩ := (Ctx.all_plug c _).mp (hplug ▸ hb)
    refine (Ctx.all_plug _ _).mpr ⟨Grade.holds_of_ne_nil (List.ne_nil_of_mem hy), ?_⟩
    rcases front with _ | _
    · exact Ctx.around_bushy _ _ hc
    · exact Ctx.around_bushy_rekey hc

end Cut

/-! ## The tree without the leaf -/

/-- What is left when the leaf goes. -/
theorem TreeOk.prune (ok : TreeOk inodeRef .built t) (hplug : c.plug (.leaf b es) = t) :
    TreeOk inodeRef .built (c.prune b).2 := by
  have hpos : ∀ e ∈ (c.plug (.leaf b es)).items, first e < stop e := by
    rw [hplug]
    exact fun e he => first_lt_stop (ok.inRange e he)
  have hsorted : (c.plug (.leaf b es)).marks.Pairwise (· ≤ ·) := hplug ▸ ok.sorted
  have hroot : c.rootAddr b = 0 := by
    have haddr := ok.addr
    rwa [← hplug, Ctx.addr_plug] at haddr
  have haddrs : (c.prune b).2.addrs ≤ t.addrs := by
    rw [← hplug, Ctx.addrs_plug]
    have hsplit := Ctx.addrs_prune c b
    rw [SepTree.addrs_leaf, add_comm, Multiset.singleton_add, hsplit]
    exact Multiset.le_add_right _ _
  have hbushy : c.Around (SepTree.BushyAt (· ≠ [])) (.leaf b es) ∨ c.length = 0 := by
    rcases ok.bushy with h0 | hb
    · refine Or.inr ?_
      have hdepth := c.depth_eq
      omega
    · have hb' : (c.plug (.leaf b es)).Bushy (· ≠ []) := hplug ▸ bushy_built.mp hb
      exact Or.inl ((Ctx.all_plug c _).mp hb').2
  obtain ⟨-, hordered⟩ := (Ctx.all_plug c _).mp (hplug ▸ ok.ordered)
  refine ⟨(Ctx.addr_prune c b).trans hroot, Multiset.nodup_of_le haddrs ok.nodup,
    fun a ha => ok.inside a (Multiset.mem_of_le haddrs ha), ?_, ?_, ?_, ?_⟩
  · rcases hbushy with hb | h0
    · exact Ctx.sorted_prune hsorted hpos hb
    · cases c with
      | nil => exact List.Pairwise.nil
      | cons f c => exact absurd h0 (Nat.succ_ne_zero _)
  · rcases hbushy with hb | h0
    · exact Ctx.ordered_prune hsorted hpos hb hordered
    · cases c with
      | nil => trivial
      | cons f c => exact absurd h0 (Nat.succ_ne_zero _)
  · rcases hbushy with hb | h0
    · exact (Ctx.bushy_prune hb).imp id bushy_built.mpr
    · cases c with
      | nil => exact Or.inl rfl
      | cons f c => exact absurd h0 (Nat.succ_ne_zero _)
  · intro e he
    rw [Ctx.items_prune] at he
    refine ok.inRange e ?_
    rw [← hplug, Ctx.items_plug]
    rcases List.mem_append.mp he with he | he
    · exact List.mem_append_left _ (List.mem_append_left _ he)
    · exact List.mem_append_right _ he

end Tree

end Lemmas

end EspLwext4
