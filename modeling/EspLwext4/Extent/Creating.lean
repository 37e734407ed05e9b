import EspLwext4.Extent.Gap

/-!
# Creating blocks

On an unmapped block `ext4_extent_get_blocks` takes a run of physical blocks, no longer
than the room up to the next mapping, and inserts an extent for it. If the extent cannot
be inserted the run is given back.
-/

namespace EspLwext4

open Prog Bytes Ranged

variable (inodeRef : InodeRef) (g : Grade)

/-- Between `s` and `s'` the blocks `pblock`, …, `pblock + count - 1` were taken. -/
structure RunTaken (base : Multiset ℕ) (s s' : St) (pblock count : ℕ) : Prop where
  spent : Spent base s s' (blockRun pblock count)
  bytes : s'.bytes = s.bytes
  inside : 0 < count → pblock ≠ 0 ∧ pblock + count ≤ inodeRef.blocksCnt

/-- The extent that `ext4_extent_get_blocks` inserts. -/
def newRun (iblock pblock count : ℕ) : Ext4Extent := extentStorePblock ⟨iblock, u16 count, 0, 0⟩ pblock

/-- No more blocks than this are asked for at `iblock`. -/
def runCap (es : List Ext4Extent) (iblock maxBlocks : ℕ) : ℕ :=
  let cap := min maxBlocks extInitMaxLen
  (((extentBehind es iblock).map fun e => first e - iblock).map (min cap)).getD cap

/-- What the allocator answered. -/
def Event.answer : Event → Option (Except Errno ℕ)
  | .ballocAllocBlock _ result => some result
  | _ => none

/-- The allocator's answers between `s` and `s'`, the first one in front. -/
def answersSince (s s' : St) : List (Except Errno ℕ) :=
  ((s'.trace.take (s'.trace.length - s.trace.length)).filterMap Event.answer).reverse

/-- How many of the answers hand out the blocks from `next` on, one behind the other. -/
def adjacent : (next : ℕ) → List (Except Errno ℕ) → ℕ
  | next, .ok b :: answers => if b = next then adjacent (next + 1) answers + 1 else 0
  | _, _ => 0

/-- The run that the first `n` answers make: the block handed out first, and those of the
others that continue it. -/
def granted (n : ℕ) (answers : List (Except Errno ℕ)) : ℕ × ℕ :=
  match answers.take n with
  | .ok b :: answers => (b, adjacent (b + 1) answers + 1)
  | _ => (0, 0)

/-- No call answers `ENOENT`, which `ext4_extent_get_blocks` takes for the end of the file
when a read of the next leaf does. -/
def NeverMissing : Prop := ∀ c tr, inodeRef.lwext4.io c tr ≠ some .enoent

/-- What a call that creates blocks at `iblock` asks of a tree with the extents `es` for the
new extent to stay in range and apart: nothing that ends at 2^32 starts at or before `iblock`;
`iblock` is mapped, or something lies behind it, or all the blocks asked for lie below 2^32;
and block 0 is not taken for the continuation of a first extent that ends at 2^32. -/
structure StaysInRange (es : List Ext4Extent) (iblock maxBlocks : ℕ) : Prop where
  apart : ∀ e ∈ es, ¬ WrapsAround e iblock
  ends : (∃ e ∈ es, Covers e iblock) ∨ (∃ e ∈ es, iblock < first e) ∨
    iblock + min maxBlocks extInitMaxLen ≤ uint32Max + 1
  start : iblock = 0 → ∀ e ∈ es.head?, stop e = uint32Max + 1 →
    extentIsUnwritten e = true ∨ extentGetActualLen e = extInitMaxLen

/-- What a call that creates blocks at `iblock` has to find to do what it should. -/
structure Regular (es : List Ext4Extent) (iblock maxBlocks : ℕ) : Prop where
  writes : WritesSucceed inodeRef
  neverMissing : NeverMissing inodeRef
  free : ∀ e ∈ es, ¬ Covers e iblock
  stays : StaysInRange es iblock maxBlocks

/-- So many blocks the allocator is asked for at `iblock`: where a call of the block layer
answered `ENOENT`, the gap up to the next extent may have been missed. -/
def AsksFor (s s' : St) (es : List Ext4Extent) (iblock maxBlocks cap : ℕ) : Prop :=
  cap = runCap es iblock maxBlocks ∨
    IoFailed inodeRef s s' .enoent ∧ cap = min maxBlocks extInitMaxLen

/-- A call that creates blocks at `iblock` returned `r`, wherever these blocks lie: the tree is
`t'`, with the blocks `own` as further nodes. -/
structure Allotted (base : Multiset ℕ) (s s' : St) {d d' : ℕ} (t : SepTree Ext4Extent d)
    (iblock maxBlocks : ℕ) (r : ℕ × ℕ) (own : Multiset ℕ) (t' : SepTree Ext4Extent d') : Prop where
  pos : 0 < r.2
  asked : ∃ cap, AsksFor inodeRef s s' t.items iblock maxBlocks cap ∧ r.2 ≤ cap ∧
    granted cap (answersSince s s') = r
  put : ∃ s₁, RunTaken inodeRef base s s₁ r.1 r.2 ∧
    Put inodeRef .built (blockRun r.1 r.2 + base) s₁ s' t (newRun iblock r.1 r.2) own t'

/-- A call that creates blocks at `iblock`, where they stay in range and apart, returned `r`. -/
structure Created (base : Multiset ℕ) (s s' : St) {d d' : ℕ} (t : SepTree Ext4Extent d)
    (iblock maxBlocks : ℕ) (r : ℕ × ℕ) (own : Multiset ℕ) (t' : SepTree Ext4Extent d') : Prop where
  pos : 0 < r.2
  le : r.2 ≤ runCap t.items iblock maxBlocks
  new : Insertable inodeRef (newRun iblock r.1 r.2) t.items
  granted : granted (runCap t.items iblock maxBlocks) (answersSince s s') = r
  placed : ∃ s₁, RunTaken inodeRef base s s₁ r.1 r.2 ∧
    Placed inodeRef .built (blockRun r.1 r.2 + base) s₁ s' t (newRun iblock r.1 r.2) own t'

/-- It failed: with the tree as it was or of another shape, or in `insert_extent`, after which
the run was given back. -/
def CreateFailed (base : Multiset ℕ) (s s' : St) {d : ℕ} (t : SepTree Ext4Extent d) (iblock : ℕ)
    (err : Errno) : Prop :=
  (Spent base s s' 0 ∧ s'.bytes = s.bytes) ∨
  ∃ s₁ s₂ pblock count, RunTaken inodeRef base s s₁ pblock count ∧
    Insertable inodeRef (newRun iblock pblock count) t.items ∧
    InsertFailed inodeRef .built (blockRun pblock count + base) s₁ s₂ t (newRun iblock pblock count)
      err ∧ s' = s₂.log (.io (.ballocFreeBlocks pblock count) none)

section Lemmas

variable {inodeRef g} {base own : Multiset ℕ} {s s₁ s₂ s' : St} {d d' b : ℕ} {err : Errno}
variable {t : SepTree Ext4Extent d} {t' : SepTree Ext4Extent d'} {es : List Ext4Extent}
variable {iblock maxBlocks goal pblock count n : ℕ}

/-! ## The run -/

theorem answersSince_eq {evs : List Event} (h : s'.trace = evs ++ s.trace) :
    answersSince s s' = (evs.filterMap Event.answer).reverse := by
  unfold answersSince
  rw [h, List.length_append, Nat.add_sub_cancel, List.take_left]

theorem answersSince_trans (h : s.trace <:+ s₁.trace) (h' : s₁.trace <:+ s'.trace) :
    answersSince s s' = answersSince s s₁ ++ answersSince s₁ s' := by
  obtain ⟨evs, h⟩ := h
  obtain ⟨evs', h'⟩ := h'
  have hall : s'.trace = (evs' ++ evs) ++ s.trace := by rw [← h', ← h, List.append_assoc]
  rw [answersSince_eq hall, answersSince_eq h.symm, answersSince_eq h'.symm, List.filterMap_append,
    List.reverse_append]

@[simp] theorem answersSince_log (ev : Event) :
    answersSince s (s.log ev) = ev.answer.toList := by
  have htrace : (s.log ev).trace = [ev] ++ s.trace := rfl
  rw [answersSince_eq htrace]
  cases h : ev.answer <;> simp [h]

/-- A quiet call asks the allocator for nothing. -/
theorem answer_of_quiet {ev : Event} (h : ev.quiet = true) : ev.answer = none := by
  cases ev with
  | io c r => rfl
  | ballocAllocBlock goal r => cases h
  | checked f n => rfl

theorem answersSince_reads (h : Reads s s₁) (h' : s₁.trace <:+ s'.trace) :
    answersSince s s' = answersSince s₁ s' := by
  obtain ⟨evs, htrace, hquiet⟩ := h.trace
  have hnone : evs.filterMap Event.answer = [] :=
    List.filterMap_eq_nil_iff.mpr fun ev hev => answer_of_quiet (hquiet ev hev)
  rw [answersSince_trans h.suffix h', answersSince_eq htrace, hnone]
  rfl

/-- The loop keeps the run that the answers make. -/
theorem wp_allocateRun_granted : ∀ (n goal pblock count : ℕ) (s : St), (count = 0 → pblock = 0) →
    wp (allocateRun inodeRef n goal pblock count)
      (fun r s' => s.trace <:+ s'.trace ∧ ∀ rest, r = if count = 0 then
        granted n (answersSince s s' ++ rest) else
        (pblock, count + adjacent (pblock + count) ((answersSince s s' ++ rest).take n)))
      (fun _ _ => True) s := by
  intro n
  induction n with
  | zero =>
      intro goal pblock count s h0
      refine ⟨List.suffix_rfl, fun rest => ?_⟩
      split
      · rename_i hcount
        rw [hcount, h0 hcount]
        rfl
      · rfl
  | succ n ih =>
      intro goal pblock count s h0
      -- the first answer, and those behind it
      have behind {result : Except Errno ℕ} {s' : St}
          (h : (s.log (.ballocAllocBlock goal result)).trace <:+ s'.trace)
          (rest : List (Except Errno ℕ)) : (answersSince s s' ++ rest).take (n + 1) = result ::
            (answersSince (s.log (.ballocAllocBlock goal result)) s' ++ rest).take n := by
        rw [answersSince_trans (St.suffix_log s _) h, answersSince_log]
        rfl
      unfold allocateRun
      rw [wp_bind, wp_attempt, wp_ballocAllocBlock]
      constructor
      · intro b _
        show wp (if count = 0 then _ else _) _ _ _
        rw [wp_ite]
        constructor
        · intro hcount
          refine wp_mono (ih (b + 1) b 1 _ fun h => absurd h one_ne_zero) ?_ fun _ _ h => h
          rintro r s' ⟨hsuffix, hr⟩
          refine ⟨(St.suffix_log s _).trans hsuffix, fun rest => ?_⟩
          rw [if_pos hcount, granted, behind hsuffix, hr rest, if_neg one_ne_zero, Nat.add_comm 1]
        intro hcount
        rw [wp_ite]
        constructor
        · rintro rfl
          refine wp_mono (ih _ pblock (count + 1) _ fun h => absurd h (Nat.succ_ne_zero _)) ?_
            fun _ _ h => h
          rintro r s' ⟨hsuffix, hr⟩
          refine ⟨(St.suffix_log s _).trans hsuffix, fun rest => ?_⟩
          rw [if_neg hcount, behind hsuffix, hr rest, if_neg (Nat.succ_ne_zero _), adjacent, if_pos rfl,
            ← Nat.add_assoc pblock, Nat.add_assoc count, Nat.add_comm 1]
        · intro hne
          have hstop {s' : St}
              (h : (s.log (.ballocAllocBlock goal (.ok b))).trace <:+ s'.trace) :
              s.trace <:+ s'.trace ∧ ∀ rest, (pblock, count) = if count = 0 then
                granted (n + 1) (answersSince s s' ++ rest) else (pblock, count +
                  adjacent (pblock + count) ((answersSince s s' ++ rest).take (n + 1))) := by
            refine ⟨(St.suffix_log s _).trans h, fun rest => ?_⟩
            rw [if_neg hcount, behind h, adjacent, if_neg hne]
            rfl
          simp only [wp_bind, wp_orElse, wp_ballocFreeBlock, wp_pure, freeRun, wp_ballocFreeBlocks,
            wp_raise, implies_true, and_self, and_true]
          exact fun _ => hstop (St.suffix_log _ _)
      · intro err _
        show wp (if count = 0 then _ else _) _ _ _
        rw [wp_ite]
        refine ⟨fun _ => trivial, fun hcount => ?_⟩
        rw [wp_ite]
        constructor
        · intro _
          simp [freeRun]
        · intro _
          refine ⟨St.suffix_log s _, fun rest => ?_⟩
          rw [if_neg hcount, behind List.suffix_rfl]
          rfl

theorem RunTaken.start (base : Multiset ℕ) (s : St) (pblock : ℕ) :
    RunTaken inodeRef base s s pblock 0 := ⟨.refl base s, rfl, fun h => absurd h (Nat.lt_irrefl 0)⟩

/-- The first block of a run. -/
theorem RunTaken.one (h : RunTaken inodeRef base s s₁ pblock 0) (hb : b ≠ 0 ∧ b < inodeRef.blocksCnt ∧ b ∉ base) :
    RunTaken inodeRef base s (s₁.log (.ballocAllocBlock goal (.ok b))) b 1 := by
  refine ⟨?_, h.bytes, fun _ => ⟨hb.1, hb.2.1⟩⟩
  have hspent := h.spent
  rw [blockRun_zero] at hspent
  have htaken : Spent (0 + base) s₁ (s₁.log (.ballocAllocBlock goal (.ok b))) {b} :=
    .take (by rw [zero_add]; exact hb.2.2)
  have := hspent.trans htaken
  rwa [add_zero, ← blockRun_one] at this

/-- One more block. -/
theorem RunTaken.succ (h : RunTaken inodeRef base s s₁ pblock count) (hpos : 0 < count)
    (hlt : pblock + count < inodeRef.blocksCnt) (hb : pblock + count ∉ blockRun pblock count + base) :
    RunTaken inodeRef base s (s₁.log (.ballocAllocBlock goal (.ok (pblock + count))))
      pblock (count + 1) := by
  refine ⟨?_, h.bytes, fun _ => ⟨(h.inside hpos).1, hlt⟩⟩
  have htaken : Spent (blockRun pblock count + base) s₁
      (s₁.log (.ballocAllocBlock goal (.ok (pblock + count)))) {pblock + count} := .take hb
  have := h.spent.trans htaken
  rwa [← blockRun_one, add_comm (blockRun _ 1), ← blockRun_add] at this

/-- A block that does not continue the run, given back. -/
theorem RunTaken.skip (h : RunTaken inodeRef base s s₁ pblock count)
    (hb : b ∉ blockRun pblock count + base) :
    RunTaken inodeRef base s ((s₁.log (.ballocAllocBlock goal (.ok b))).log
      (.io (.ballocFreeBlock b) none)) pblock count := by
  refine ⟨?_, h.bytes, h.inside⟩
  have hrun : Spent (blockRun pblock count + base) s₁ (s₁.log (.ballocAllocBlock goal (.ok b)))
      (blockRun b 1 + 0) := by
    rw [blockRun_one, add_zero]
    exact .take hb
  have hfreed : (Event.io (.ballocFreeBlock b) none).txn = some (.give b 1) := rfl
  have := h.spent.trans (hrun.give hfreed)
  rwa [zero_add] at this

/-- An allocation that was refused. -/
theorem RunTaken.refused (h : RunTaken inodeRef base s s₁ pblock count) :
    RunTaken inodeRef base s (s₁.log (.ballocAllocBlock goal (.error err))) pblock count := by
  refine ⟨?_, h.bytes, h.inside⟩
  have hrefused : Spent (blockRun pblock count + base) s₁
      (s₁.log (.ballocAllocBlock goal (.error err))) 0 := .refused _
  have := h.spent.trans hrefused
  rwa [zero_add] at this

/-- The run given back. -/
theorem RunTaken.back (h : RunTaken inodeRef base s s₁ pblock count) :
    Spent base s (s₁.log (.io (.ballocFreeBlocks pblock count) none)) 0 := by
  have hspent : Spent base s s₁ (blockRun pblock count + 0) := by rw [add_zero]; exact h.spent
  exact hspent.give rfl

theorem wp_freeRun {α : Type} {Q : α → St → Prop} {E : Errno → St → Prop}
    (hE : WritesSucceed inodeRef → E err (s.log (.io (.ballocFreeBlocks pblock count) none))) :
    wp (freeRun inodeRef pblock count err) Q (fun e s' => WritesSucceed inodeRef → E e s') s := by
  unfold freeRun
  rw [wp_bind]
  exact wp_ballocFreeBlocks_ok (fun hn _ _ hw => absurd hw hn) hE

/-- The allocation loop takes one run, of the blocks it still wants at most. -/
theorem wp_allocateRun (hout : HandsOut inodeRef base s.trace) :
    ∀ (n goal pblock count : ℕ) (s₁ : St), RunTaken inodeRef base s s₁ pblock count →
      wp (allocateRun inodeRef n goal pblock count)
        (fun r s' => RunTaken inodeRef base s s' r.1 r.2 ∧ r.2 ≤ count + n ∧ (0 < count + n → 0 < r.2))
        (fun err s' => WritesSucceed inodeRef →
          (Spent base s s' 0 ∧ s'.bytes = s.bytes) ∧ Refused s s' err) s₁ := by
  intro n
  induction n with
  | zero => exact fun goal pblock count s₁ h => ⟨h, Nat.le_refl _, id⟩
  | succ n ih =>
      intro goal pblock count s₁ h
      have hnext := hout.after h.spent
      unfold allocateRun
      rw [wp_bind, wp_attempt, wp_ballocAllocBlock]
      constructor
      · intro b hb
        obtain ⟨h0, hlt, hfresh⟩ := hnext.next hb
        show wp (if count = 0 then _ else _) _ _ _
        rw [wp_ite]
        constructor
        · rintro rfl
          rw [blockRun_zero, zero_add] at hfresh
          refine wp_mono (ih (b + 1) b 1 _ (h.one ⟨h0, hlt, hfresh⟩)) ?_ fun _ _ h => h
          rintro r s' ⟨htaken, hle, hpos⟩
          exact ⟨htaken, by omega, fun _ => hpos (by omega)⟩
        intro hne
        rw [wp_ite]
        constructor
        · rintro rfl
          refine wp_mono (ih (pblock + count + 1) pblock (count + 1) _
            (h.succ (Nat.pos_of_ne_zero hne) hlt hfresh)) ?_ fun _ _ h => h
          rintro r s' ⟨htaken, hle, hpos⟩
          exact ⟨htaken, by omega, fun _ => hpos (by omega)⟩
        · intro _
          rw [wp_bind, wp_orElse]
          refine wp_ballocFreeBlock_ok (fun hn _ _ => wp_freeRun fun hw => absurd hw hn) ?_
          exact ⟨h.skip hfresh, by omega, fun _ => Nat.pos_of_ne_zero hne⟩
      · intro err herr
        have hrefused : LoggedSince s (s₁.log (.ballocAllocBlock goal (.error err)))
            (.ballocAllocBlock goal (.error err)) := .of_log _ h.spent.suffix
        show wp (if count = 0 then _ else _) _ _ _
        rw [wp_ite]
        constructor
        · rintro rfl
          exact fun _ => ⟨⟨h.refused.spent, h.bytes⟩, goal, hrefused⟩
        intro hne
        rw [wp_ite]
        constructor
        · intro _
          exact wp_freeRun fun _ =>
            ⟨⟨h.refused.back, h.bytes⟩, goal, hrefused.mono (List.suffix_cons _ _)⟩
        · exact fun _ => ⟨h.refused, by omega, fun _ => Nat.pos_of_ne_zero hne⟩

/-! ## The new extent -/

section New

variable (hpos : 0 < count) (hle : count ≤ 32768) (hpblock : pblock < pblockLimit)

@[simp] theorem newRun_firstBlock : (newRun iblock pblock count).firstBlock = iblock := rfl

include hle in
theorem newRun_blockCount : (newRun iblock pblock count).blockCount = count :=
  u16_of_lt (Nat.lt_of_le_of_lt hle (by decide))

include hle in
theorem newRun_written : extentIsUnwritten (newRun iblock pblock count) = false := by
  rw [Bool.eq_false_iff]
  intro hu
  have h := Ext4Extent.unwritten_iff.mp hu
  rw [newRun_blockCount hle] at h
  omega

include hle in
theorem newRun_len : extentGetActualLen (newRun iblock pblock count) = count := by
  have hcount : (newRun iblock pblock count).blockCount = count := newRun_blockCount hle
  rw [Ext4Extent.len_eq_of_written (by rw [hcount]; exact hle), hcount]

include hpblock in
theorem newRun_pblock : extentGetPblock (newRun iblock pblock count) = pblock :=
  extentGetPblock_store hpblock

include hle in
theorem stop_newRun : stop (newRun iblock pblock count) = iblock + count := by
  rw [stop_extent, newRun_firstBlock, newRun_len hle]

include hle hpblock in
theorem newRun_run : (newRun iblock pblock count).run = blockRun pblock count := by
  unfold Ext4Extent.run
  rw [newRun_pblock hpblock, newRun_len hle]

theorem newRun_fits (hiblock : iblock ≤ uint32Max) : (newRun iblock pblock count).Fits := by
  unfold uint32Max at hiblock
  refine ⟨Nat.lt_succ_of_le hiblock, Nat.mod_lt _ (by decide), ?_, ?_⟩
  · exact Nat.mod_lt _ (by decide)
  · exact Nat.mod_lt _ (by decide)

end New

theorem fresh_newRun (hpos : 0 < count) (hle : count ≤ 32768) (hiblock : iblock ≤ uint32Max)
    (hinside : pblock ≠ 0 ∧ pblock + count ≤ inodeRef.blocksCnt)
    (hcnt : inodeRef.blocksCnt ≤ pblockLimit) : Fresh inodeRef (newRun iblock pblock count) := by
  have hpblock : pblock < pblockLimit := by omega
  refine ⟨newRun_fits hiblock, newRun_written hle, ?_, ?_, ?_⟩
  · rwa [newRun_len hle]
  · rw [newRun_pblock hpblock]
    exact Nat.pos_of_ne_zero hinside.1
  · rw [newRun_len hle, newRun_pblock hpblock]
    exact hinside.2

/-! ## Its room -/

/-- The first extent behind a block is in front of all that are. -/
theorem extentBehind_le (hs : es.Pairwise fun x y => first x ≤ first y) {e : Ext4Extent}
    (he : e ∈ es) (hlt : iblock < first e) :
    ∃ x, extentBehind es iblock = some x ∧ first x ≤ first e := by
  induction es with
  | nil => cases he
  | cons y es ih =>
      rw [List.pairwise_cons] at hs
      by_cases hy : iblock < first y
      · refine ⟨y, List.find?_cons_of_pos (decide_eq_true hy), ?_⟩
        rcases List.mem_cons.mp he with rfl | he
        · exact Nat.le_refl _
        · exact hs.1 e he
      · have hmem : e ∈ es := (List.mem_cons.mp he).resolve_left fun heq => hy (heq ▸ hlt)
        obtain ⟨x, hx, hle⟩ := ih hs.2 hmem
        refine ⟨x, ?_, hle⟩
        unfold extentBehind at hx ⊢
        rwa [List.find?_cons_of_neg (by rwa [decide_eq_true_eq])]

theorem runCap_le : runCap es iblock maxBlocks ≤ min maxBlocks extInitMaxLen := by
  unfold runCap
  rcases extentBehind es iblock with _ | x
  · exact Nat.le_refl _
  · exact Nat.min_le_left _ _

theorem runCap_le_gap {x : Ext4Extent} (h : extentBehind es iblock = some x) :
    runCap es iblock maxBlocks ≤ first x - iblock := by
  unfold runCap
  rw [h]
  exact Nat.min_le_right _ _

section Room

variable (hrange : ∀ e ∈ es, extentInRange inodeRef e = true) (hs : Apart es)
  (hfree : ∀ e ∈ es, ¬ Covers e iblock) (hpos : 0 < count)
  (hcount : count ≤ runCap es iblock maxBlocks)

include hrange hs

theorem firsts_sorted : es.Pairwise fun x y => first x ≤ first y :=
  List.Pairwise.imp_of_mem
    (fun hx _ hxy => Nat.le_trans (Nat.le_of_lt (first_lt_stop (hrange _ hx))) hxy) hs

include hfree hcount

/-- The run fits between the extents around it. -/
theorem newRun_apart {e : Ext4Extent} (he : e ∈ es) : stop e ≤ iblock ∨ iblock + count ≤ first e := by
  rcases Nat.lt_or_ge iblock (first e) with hlt | hge
  · obtain ⟨x, hx, hle⟩ := extentBehind_le (firsts_sorted hrange hs) he hlt
    have hgap : runCap es iblock maxBlocks ≤ first x - iblock := runCap_le_gap hx
    exact Or.inr (by omega)
  · exact Or.inl (Nat.not_lt.mp fun hlt => hfree e he ⟨hge, hlt⟩)

/-- The new extent, where it stays in range. -/
theorem insertable_newRun (hpos : 0 < count) (hiblock : iblock ≤ uint32Max)
    (hstay : StaysInRange es iblock maxBlocks)
    (hinside : pblock ≠ 0 ∧ pblock + count ≤ inodeRef.blocksCnt)
    (hcnt : inodeRef.blocksCnt ≤ pblockLimit) :
    Insertable inodeRef (newRun iblock pblock count) es := by
  have hle : count ≤ 32768 := (hcount.trans runCap_le).trans (Nat.min_le_right _ _)
  have hend : iblock + count ≤ 4294967296 := by
    rcases hstay.ends with ⟨e, he, hcov⟩ | ⟨e, he, hlt⟩ | hends
    · exact absurd hcov (hfree e he)
    · have hstop := (extentInRange_iff.mp (hrange e he)).2.1
      have hlen := (extentInRange_iff.mp (hrange e he)).1
      have happart := (newRun_apart hrange hs hfree hcount he).resolve_left fun h => by
        have := first_lt_stop (hrange e he)
        omega
      rw [first_extent] at happart
      omega
    · have hmin := hcount.trans runCap_le
      unfold uint32Max at hends
      omega
  refine (fresh_newRun hpos hle hiblock hinside hcnt).insertable ?_ fun e he => ?_
  · rwa [stop_newRun hle]
  · rw [stop_newRun hle]
    exact newRun_apart hrange hs hfree hcount he

omit hs hfree in
/-- Where `can_merge` takes the new extent for the continuation of the first one, it is. -/
theorem continues_newRun (hpos : 0 < count) (hstay : StaysInRange es iblock maxBlocks) :
    Continues (newRun iblock pblock count) es := by
  intro e he hmerge
  have hle : count ≤ 32768 := (hcount.trans runCap_le).trans (Nat.min_le_right _ _)
  obtain ⟨hunwritten, htouch, hsum, -⟩ := canMerge_iff.mp hmerge
  obtain ⟨-, hstop, -⟩ := extentInRange_iff.mp (hrange e (List.mem_of_head? he))
  rw [newRun_firstBlock] at htouch
  rcases Nat.lt_or_eq_of_le hstop with hlt | heq
  · rwa [u32_of_lt hlt] at htouch
  · rw [newRun_written hle] at hunwritten
    rw [newRun_len hle] at hsum
    have h0 : iblock = 0 := by rw [← htouch, heq]; rfl
    rcases hstay.start h0 e he heq with hu | hlen
    · rw [hu] at hunwritten
      cases hunwritten
    · rw [hlen, hunwritten, if_neg Bool.false_ne_true] at hsum
      omega

end Room

/-! ## The call -/

theorem RunTaken.after_reads (h : RunTaken inodeRef base s₁ s' pblock count) (hreads : Reads s s₁) :
    RunTaken inodeRef base s s' pblock count :=
  ⟨.after hreads.quiet h.spent, h.bytes.trans hreads.bytes, h.inside⟩

/-- With the run in hand the tree stands as before. -/
theorem RunTaken.holding (h : RunTaken inodeRef base s s₁ pblock count)
    (hold : Holding inodeRef g base s t) : Holding inodeRef g (blockRun pblock count + base) s₁ t := by
  refine hold.next h.spent ?_ hold.ok fun a ha => Multiset.mem_add.mpr (Or.inr (hold.within a ha))
  rw [h.bytes]
  exact hold.rep

theorem NeverMissing.not_failed (h : NeverMissing inodeRef) : ¬ IoFailed inodeRef s s' .enoent := by
  rintro ⟨c, tr, -, hfail, -⟩
  exact h c tr hfail

theorem AsksFor.le {cap : ℕ} (h : AsksFor inodeRef s s' es iblock maxBlocks cap) : cap ≤ 32768 := by
  rcases h with rfl | ⟨-, rfl⟩
  · exact runCap_le.trans (Nat.min_le_right _ _)
  · exact Nat.min_le_right _ _

section Create

variable {path : ExtentSearchPath} {leaf : ExtentPathNode} {c : Ctx Ext4Extent 0 d}

theorem Regular.asked {cap : ℕ} (h : Regular inodeRef es iblock maxBlocks)
    (hcap : AsksFor inodeRef s s' es iblock maxBlocks cap) : cap = runCap es iblock maxBlocks :=
  hcap.resolve_right fun hmissed => h.neverMissing.not_failed hmissed.1

theorem Regular.belongs (h : Regular inodeRef es iblock maxBlocks)
    (hrange : ∀ e ∈ es, extentInRange inodeRef e = true) (hs : Apart es) (hpos : 0 < count)
    (hcount : count ≤ runCap es iblock maxBlocks) (hiblock : iblock ≤ uint32Max)
    (hinside : pblock ≠ 0 ∧ pblock + count ≤ inodeRef.blocksCnt)
    (hcnt : inodeRef.blocksCnt ≤ pblockLimit) :
    Belongs inodeRef (newRun iblock pblock count) es :=
  ⟨insertable_newRun hrange hs h.free hcount hpos hiblock h.stays hinside hcnt,
    continues_newRun hrange hcount hpos h.stays⟩

/-- There it creates them. -/
theorem Allotted.created {r : ℕ × ℕ}
    (h : Allotted inodeRef base s s' t iblock maxBlocks r own t')
    (hreg : Regular inodeRef t.items iblock maxBlocks) (ok : TreeOk inodeRef .built t)
    (hiblock : iblock ≤ uint32Max) (hcnt : inodeRef.blocksCnt ≤ pblockLimit) :
    Created inodeRef base s s' t iblock maxBlocks r own t' := by
  obtain ⟨cap, hasked, hle, hgranted⟩ := h.asked
  obtain rfl := hreg.asked hasked
  obtain ⟨s₁, htaken, hput⟩ := h.put
  have hb := hreg.belongs ok.inRange ok.treeFit.apart h.pos hle hiblock (htaken.inside h.pos) hcnt
  exact ⟨h.pos, hle, hb.insertable, hgranted, s₁, htaken, hput.placed hb⟩

/-- The creating part of `ext4_extent_get_blocks`. -/
theorem wp_createBlocks
    (hcnt : inodeRef.blocksCnt ≤ pblockLimit) (hold : Holding inodeRef .built base s t)
    (hloc : Located inodeRef s.bytes t iblock path c b es leaf) (hiblock : iblock ≤ uint32Max) :
    wp (createBlocks inodeRef path leaf iblock maxBlocks)
      (fun r s' => ∃ (d' : ℕ) (own : Multiset ℕ) (t' : SepTree Ext4Extent d'),
        Allotted inodeRef base s s' t iblock maxBlocks r own t')
      (fun err s' => Regular inodeRef t.items iblock maxBlocks →
        CreateFailed inodeRef base s s' t iblock err) s := by
  have hrange := hold.ok.inRange
  have hapart : Apart t.items := hold.ok.treeFit.apart
  have early {s' : St} {err : Errno} (h : Reads s s') : CreateFailed inodeRef base s s' t iblock err :=
    Or.inl ⟨.of_quiet base h.quiet, h.bytes⟩
  unfold createBlocks
  dsimp only
  rw [wp_bind, wp_requireJournaledMutation]
  refine ⟨fun _ => ?_, fun _ _ => early (.refl s)⟩
  rw [wp_bind]
  refine wp_mono (wp_gapToNext hold.rep hold.ok hloc) ?_ fun err s₁ h _ => early h.1
  rintro gap s₁ ⟨h₁, hgap⟩
  set cap := (gap.map (min (min maxBlocks extInitMaxLen))).getD (min maxBlocks extInitMaxLen)
    with hcapdef
  have hasks : AsksFor inodeRef s s₁ t.items iblock maxBlocks cap := by
    rcases hgap with ⟨hmissed, rfl⟩ | rfl
    · exact Or.inr ⟨hmissed, rfl⟩
    · exact Or.inl rfl
  rw [wp_bind, wp_failIf]
  refine ⟨fun _ _ => early h₁, fun hcap => ?_⟩
  have hcap : 0 < cap := Nat.pos_of_ne_zero hcap
  have hout : HandsOut inodeRef base s₁.trace := hold.handsOut.quiet h₁.quiet
  rw [wp_bind]
  refine wp_mono (wp_and (wp_allocateRun hout _ _ 0 0 s₁ (.start base s₁ 0))
    (wp_allocateRun_granted _ _ 0 0 s₁ fun _ => rfl)) ?_ ?_
  · rintro ⟨pblock, count⟩ s₂ ⟨⟨htaken, hle, hpos⟩, hsuffix, hgranted⟩
    rw [zero_add] at hle hpos
    have hpos : 0 < count := hpos hcap
    have htaken : RunTaken inodeRef base s s₂ pblock count := htaken.after_reads h₁
    have hnew : Fresh inodeRef (newRun iblock pblock count) :=
      fresh_newRun hpos (hle.trans hasks.le) hiblock (htaken.inside hpos) hcnt
    have hold₂ := htaken.holding hold
    show wp (failIf (count = 0) Errno.enospc >>= _) _ _ _
    rw [wp_bind, wp_failIf]
    refine ⟨fun h0 => absurd h0 (Nat.pos_iff_ne_zero.mp hpos), fun _ => ?_⟩
    rw [wp_bind, wp_orElse]
    refine wp_mono (wp_insertExtent 7 hcnt hold₂ hnew (leafReady_built hold₂.rep hold₂.ok _)) ?_ ?_
    · rintro _ s' ⟨d', own, t', hput⟩
      have hlater : s₁.trace <:+ s'.trace := hsuffix.trans hput.spent.suffix
      refine ⟨d', own, t', hpos, ⟨cap, ?_, hle, ?_⟩, s₂, htaken, hput⟩
      · exact hasks.imp_right fun hmissed => ⟨hmissed.1.mono hlater, hmissed.2⟩
      · rw [answersSince_reads h₁ hlater, answersSince_trans hsuffix hput.spent.suffix]
        exact (hgranted _).symm
    · intro err s₃ hfailed
      refine wp_mono (wp_freeRun (E := fun e s' => Regular inodeRef t.items iblock maxBlocks →
        CreateFailed inodeRef base s s' t iblock e) fun hw hreg => ?_) (fun _ _ h => h)
        fun _ _ h hreg => h hreg.writes hreg
      have hle : count ≤ runCap t.items iblock maxBlocks := hreg.asked hasks ▸ hle
      have hb := hreg.belongs hrange hapart hpos hle hiblock (htaken.inside hpos) hcnt
      exact Or.inr ⟨s₂, s₃, pblock, count, htaken, hb.insertable, hfailed hw hb, rfl⟩
  · rintro err s₂ ⟨hfailed, -⟩ hreg
    obtain ⟨⟨hspent, hbytes⟩, -⟩ := hfailed hreg.writes
    exact Or.inl ⟨.after h₁.quiet hspent, hbytes.trans h₁.bytes⟩

end Create

section Calls

variable {iblock maxBlocks : UInt32} (hcnt : inodeRef.blocksCnt ≤ pblockLimit)
  (hold : Holding inodeRef .built base s t)

include hcnt hold

/-- `ext4_extent_get_blocks` with `create`, on a tree the code built: a block that a search
finds mapped is looked up, for another one blocks are created. -/
theorem wp_getBlocks_allotted :
    wp (ext4ExtentGetBlocks inodeRef iblock maxBlocks true)
      (fun r s' =>
        (∃ e ∈ t.items, inExtent e iblock.toNat = true ∧ extentIsUnwritten e = false ∧
          Reads s s' ∧ r = mappedAnswer e iblock.toNat maxBlocks.toNat) ∨
        (∀ e ∈ t.items, inExtent e iblock.toNat = false) ∧
          ∃ (d' : ℕ) (own : Multiset ℕ) (t' : SepTree Ext4Extent d'),
            Allotted inodeRef base s s' t iblock.toNat maxBlocks.toNat r own t')
      (fun err s' => Regular inodeRef t.items iblock.toNat maxBlocks.toNat ∨
          (∃ e ∈ t.items, inExtent e iblock.toNat = true) →
        CreateFailed inodeRef base s s' t iblock.toNat err) s := by
  have hiblock : iblock.toNat ≤ uint32Max := Nat.le_of_lt_succ iblock.toNat_lt
  have hall := hold.ok.acceptable_all hold.rep
  have early {s' : St} {err : Errno} (h : Reads s s') :
      CreateFailed inodeRef base s s' t iblock.toNat err :=
    Or.inl ⟨.of_quiet base h.quiet, h.bytes⟩
  unfold ext4ExtentGetBlocks
  dsimp only
  rw [wp_bind]
  refine wp_mono (wp_findExtent_located hold.rep hold.ok) ?_ fun err s₁ h _ => early h.1
  rintro path s₁ ⟨h₁, c, b, es, leaf, hloc⟩
  rw [wp_bind, wp_node]
  refine ⟨leaf, hloc.leafNode, ?_⟩
  have hfound := hloc.seek_eq (hold.rep.sorted hall)
  have hcount : leaf.haveExtent = true ↔ 0 < leaf.header.entriesCount := by
    have hcount := hloc.leafAt.count
    cases hloc.leafAt.cursor with
    | empty _ hhave => rw [hhave, hcount]; simp
    | entry l x r _ _ hhave _ _ => rw [hhave, hcount]; simp
  rw [wp_ite]
  constructor
  · intro hmapped
    obtain ⟨e, hseek, hextent, hcov⟩ := (mappedAt_iff hfound hcount).mp hmapped
    have he := SepTree.seek_mem hseek
    refine getBlocks_mapped (hold.ok.inRange e he) hcov hextent (fun _ _ _ => early h₁) fun hu => ?_
    refine Or.inl ⟨e, he, hcov, ?_, h₁, rfl⟩
    exact Bool.eq_false_iff.mpr fun h => absurd (hu h) (by simp)
  · intro hmapped
    have hfree : ∀ e ∈ t.items, inExtent e iblock.toNat = false := by
      refine fun e he => Bool.eq_false_iff.mpr fun hin => ?_
      obtain ⟨hle, hlt⟩ := covers_of_inExtent hin
      have hseek := SepTree.seek_covers (SepTree.bounded_of_sorted hold.ok.sorted)
        (hold.rep.sorted hall) he hle hlt
      rw [hseek] at hfound
      obtain ⟨-, hextent⟩ := Option.ite_none_right_eq_some.mp hfound
      exact hmapped ((mappedAt_iff hfound hcount).mpr ⟨e, rfl, Option.some.inj hextent, hin⟩)
    rw [if_neg (by simp)]
    have hloc₁ : Located inodeRef s₁.bytes t iblock.toNat path c b es leaf := by
      rw [h₁.bytes]; exact hloc
    refine wp_mono (wp_createBlocks hcnt (hold.reads h₁) hloc₁ hiblock) ?_ ?_
    · rintro r s' ⟨d', own, t', hpos, ⟨cap, hasked, hle, hgranted⟩, s₂, htaken, hput⟩
      have hlater := htaken.spent.suffix.trans hput.spent.suffix
      refine Or.inr ⟨hfree, d', own, t', hpos, ⟨cap, ?_, hle, ?_⟩, s₂, htaken.after_reads h₁, hput⟩
      · exact hasked.imp_right fun hmissed => ⟨hmissed.1.trans h₁, hmissed.2⟩
      · rw [answersSince_reads h₁ hlater]
        exact hgranted
    · rintro err s' hfailed (hreg | ⟨e, he, hin⟩)
      · rcases hfailed hreg with ⟨hspent, hbytes⟩ | ⟨s₂, s₃, pblock, count, htaken, hnew, hins, rfl⟩
        · exact Or.inl ⟨.after h₁.quiet hspent, hbytes.trans h₁.bytes⟩
        · exact Or.inr ⟨s₂, s₃, pblock, count, htaken.after_reads h₁, hnew, hins, rfl⟩
      · rw [hfree e he] at hin
        cases hin

/-- The same where the new extent stays in range and apart. -/
theorem wp_getBlocks_create (hw : WritesSucceed inodeRef) (hmiss : NeverMissing inodeRef)
    (hstay : StaysInRange t.items iblock.toNat maxBlocks.toNat) :
    wp (ext4ExtentGetBlocks inodeRef iblock maxBlocks true)
      (fun r s' =>
        (∃ e ∈ t.items, Covers e iblock.toNat ∧ extentIsUnwritten e = false ∧ Reads s s' ∧
          r = mappedAnswer e iblock.toNat maxBlocks.toNat) ∨
        (∀ e ∈ t.items, ¬ Covers e iblock.toNat) ∧
          ∃ (d' : ℕ) (own : Multiset ℕ) (t' : SepTree Ext4Extent d'),
            Created inodeRef base s s' t iblock.toNat maxBlocks.toNat r own t')
      (fun err s' => CreateFailed inodeRef base s s' t iblock.toNat err) s := by
  have hiblock : iblock.toNat ≤ uint32Max := Nat.le_of_lt_succ iblock.toNat_lt
  have hin {e : Ext4Extent} (he : e ∈ t.items) :
      inExtent e iblock.toNat = true ↔ Covers e iblock.toNat :=
    (inExtent_iff (hold.ok.inRange e he) hiblock).mpr (hstay.apart e he)
  have hregular (hfree : ∀ e ∈ t.items, inExtent e iblock.toNat = false) :
      Regular inodeRef t.items iblock.toNat maxBlocks.toNat :=
    ⟨hw, hmiss, fun e he hcov => by simpa [hfree e he] using (hin he).mpr hcov, hstay⟩
  refine wp_mono (wp_getBlocks_allotted hcnt hold) ?_ ?_
  · rintro r s' (⟨e, he, hcov, hfound⟩ | ⟨hfree, d', own, t', hallotted⟩)
    · exact Or.inl ⟨e, he, (hin he).mp hcov, hfound⟩
    · have hreg := hregular hfree
      exact Or.inr ⟨hreg.free, d', own, t', hallotted.created hreg hold.ok hiblock hcnt⟩
  · intro err s' hfailed
    by_cases hmapped : ∃ e ∈ t.items, inExtent e iblock.toNat = true
    · exact hfailed (Or.inr hmapped)
    · refine hfailed (Or.inl (hregular fun e he => Bool.eq_false_iff.mpr fun h => ?_))
      exact hmapped ⟨e, he, h⟩

end Calls

end Lemmas

end EspLwext4
