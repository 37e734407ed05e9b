import EspLwext4.Extent.Access

/-!
# What the searches and checks establish

Each of the reading functions of `Search` gets one specification. The checks
are stated both ways: they pass exactly on the nodes that satisfy the
predicate, and say `EIO` otherwise.
-/

namespace EspLwext4

open Prog

variable (inodeRef : InodeRef)

/-! ## The binary searches -/

/-- Where a binary search for `v` between the keys `l`, …, `r` stops, whatever their order. -/
def bisect (key : ℕ → ℕ) (v : ℕ) : (fuel l r : ℕ) → ℕ
  | 0, l, _ => l
  | fuel + 1, l, r =>
      if l ≤ r then
        if v < key (l + (r - l) / 2) then bisect key v fuel l (l + (r - l) / 2 - 1)
        else bisect key v fuel (l + (r - l) / 2 + 1) r
      else l

theorem bisect_succ (key : ℕ → ℕ) (v fuel l r : ℕ) : bisect key v (fuel + 1) l r =
    if l ≤ r then
      if v < key (l + (r - l) / 2) then bisect key v fuel l (l + (r - l) / 2 - 1)
      else bisect key v fuel (l + (r - l) / 2 + 1) r
    else l := rfl

/-- Position `pos` of `n` entries is the one a search for `lblock` stops at. -/
structure Chosen (D : Disk) (p : Place) (n lblock pos : ℕ) : Prop where
  probed : bisect (D.key p) lblock n 1 (n - 1) = pos + 1
  lt : pos < n
  le : pos = 0 ∨ D.key p pos ≤ lblock
  next : pos + 1 = n ∨ lblock < D.key p (pos + 1)

section Binsearch

variable {inodeRef} {E : Errno → St → Prop} {s : St} {data : Place} {lblock : ℕ}

theorem loadIndex_bind_key {α : Type} (pos : ℕ) (F : ℕ → M α) :
    (loadIndex inodeRef data pos >>= fun x => F x.firstBlock) =
      (loadExtent inodeRef data pos >>= fun x => F x.firstBlock) := by
  funext s
  show andThen (peek inodeRef data _ _ _) _ s = andThen (peek inodeRef data _ _ _) _ s
  unfold andThen peek access
  by_cases h : entryOff pos + 12 ≤ inodeRef.bufSize data
  · simp only [h, if_true]; rfl
  · simp only [h, if_false]; rfl

/-- The two loops are one: the test for `m == 0` never fires. -/
theorem binsearchIdxLoop_eq : ∀ (fuel l r : ℕ), 1 ≤ l →
    binsearchIdxLoop inodeRef data lblock fuel l r =
      binsearchExtentLoop inodeRef data lblock fuel l r
  | 0, _, _, _ => rfl
  | fuel + 1, l, r, hl => by
      unfold binsearchIdxLoop binsearchExtentLoop
      split
      · have hm : l + (r - l) / 2 ≠ 0 := by omega
        simp only [if_neg hm]
        rw [binsearchIdxLoop_eq fuel l _ hl, binsearchIdxLoop_eq fuel _ r (by omega)]
        exact loadIndex_bind_key _ fun key =>
          if lblock < key then binsearchExtentLoop inodeRef data lblock fuel l (l + (r - l) / 2 - 1)
          else binsearchExtentLoop inodeRef data lblock fuel (l + (r - l) / 2 + 1) r
      · rfl

theorem wp_binsearchExtentLoop {Q : ℕ → St → Prop} {n : ℕ} (hin : inodeRef.Fits data n)
    (hQ : ∀ pos, Chosen s.bytes data n lblock pos → Q (pos + 1) s) :
    ∀ (fuel l r : ℕ), 1 ≤ l → l ≤ r + 1 → r + 1 ≤ n → r + 1 - l ≤ fuel →
      (l = 1 ∨ s.bytes.key data (l - 1) ≤ lblock) → (r + 1 = n ∨ lblock < s.bytes.key data (r + 1)) →
      bisect (s.bytes.key data) lblock n 1 (n - 1) = bisect (s.bytes.key data) lblock fuel l r →
      wp (binsearchExtentLoop inodeRef data lblock fuel l r) Q E s := by
  have stop : ∀ l r : ℕ, 1 ≤ l → r < l → l ≤ r + 1 → r + 1 ≤ n →
      (l = 1 ∨ s.bytes.key data (l - 1) ≤ lblock) → (r + 1 = n ∨ lblock < s.bytes.key data (r + 1)) →
      bisect (s.bytes.key data) lblock n 1 (n - 1) = l → Q l s := by
    intro l r hl hrl hlr hrn hlo hhi hprobed
    obtain rfl : l = r + 1 := by omega
    refine hQ r ⟨hprobed, hrn, ?_, hhi⟩
    rcases hlo with h | h
    · exact Or.inl (by omega)
    · exact Or.inr h
  intro fuel
  induction fuel with
  | zero =>
      intro l r hl hlr hrn hf hlo hhi hprobed
      unfold binsearchExtentLoop
      rw [if_neg (by omega)]
      exact stop l r hl (by omega) hlr hrn hlo hhi hprobed
  | succ fuel ih =>
      intro l r hl hlr hrn hf hlo hhi hprobed
      unfold binsearchExtentLoop
      rw [bisect_succ] at hprobed
      by_cases h : l ≤ r
      · rw [if_pos h] at hprobed
        rw [if_pos h, wp_bind, wp_loadExtent]
        refine ⟨hin.mono (by omega), ?_⟩
        rw [Disk.extent_firstBlock, wp_ite]
        constructor
        · intro hlt
          have hm : l + (r - l) / 2 - 1 + 1 = l + (r - l) / 2 := by omega
          rw [if_pos hlt] at hprobed
          refine ih _ _ hl (by omega) (by omega) (by omega) hlo (Or.inr ?_) hprobed
          rw [hm]; exact hlt
        · intro hge
          rw [if_neg hge] at hprobed
          refine ih _ _ (by omega) (by omega) hrn (by omega) (Or.inr ?_) hhi hprobed
          exact Nat.le_of_not_lt hge
      · rw [if_neg h] at hprobed
        rw [if_neg h]
        exact stop l r hl (by omega) hlr hrn hlo hhi hprobed

theorem wp_binsearchExtent {Q : Ext4Extent × ℕ → St → Prop} {header : Ext4ExtentHeader}
    (hin : inodeRef.Fits data header.entriesCount) (hin₁ : inodeRef.Fits data 1)
    (h₀ : header.entriesCount = 0 → Q (s.bytes.extent data 0, 0) s)
    (hQ : ∀ pos, Chosen s.bytes data header.entriesCount lblock pos → Q (s.bytes.extent data pos, pos) s) :
    wp (binsearchExtent inodeRef data header lblock) Q E s := by
  unfold binsearchExtent
  rw [wp_ite]
  constructor
  · intro h
    simp only [wp_bind, wp_loadExtent, wp_pure]
    exact ⟨hin₁, h₀ h⟩
  · intro h
    rw [wp_bind]
    refine wp_binsearchExtentLoop hin ?_ _ _ _ (by omega) (by omega) (by omega) (by omega)
      (Or.inl rfl) (Or.inl (by omega)) rfl
    intro pos hpos
    simp only [wp_bind, wp_loadExtent, wp_pure, Nat.add_sub_cancel]
    exact ⟨hin.mono hpos.lt, hQ pos hpos⟩

theorem wp_binsearchIdx {Q : Option ℕ → St → Prop} {header : Ext4ExtentHeader}
    (hin : inodeRef.Fits data header.entriesCount)
    (h₀ : header.entriesCount = 0 → Q none s)
    (hQ : ∀ pos, Chosen s.bytes data header.entriesCount lblock pos → Q (some pos) s) :
    wp (binsearchIdx inodeRef data header lblock) Q E s := by
  unfold binsearchIdx
  rw [wp_ite]
  refine ⟨h₀, fun h => ?_⟩
  rw [wp_bind, binsearchIdxLoop_eq _ _ _ (Nat.le_refl 1)]
  refine wp_binsearchExtentLoop hin ?_ _ _ _ (by omega) (by omega) (by omega) (by omega)
    (Or.inl rfl) (Or.inl (by omega)) rfl
  intro pos hpos
  rw [if_neg (by omega), wp_pure]
  exact hQ pos hpos

end Binsearch

/-! ## Headers -/

/-- What `validate_header` accepts at a place. -/
structure HeaderOk (p : Place) (h : Ext4ExtentHeader) : Prop where
  magic : h.magic = ext4ExtentMagic
  depth : h.depth ≤ ext4ExtentMaxDepth
  pos : 0 < h.maxEntriesCount
  count : h.entriesCount ≤ h.maxEntriesCount
  max : h.maxEntriesCount ≤ inodeRef.capacityOf p

theorem HeaderOk.fits {inodeRef : InodeRef} {p : Place} {h : Ext4ExtentHeader}
    (hh : HeaderOk inodeRef p h) : inodeRef.Fits p h.entriesCount :=
  inodeRef.fits_of_le (Nat.le_trans hh.count hh.max)

theorem HeaderOk.fits_one {inodeRef : InodeRef} {p : Place} {h : Ext4ExtentHeader}
    (hh : HeaderOk inodeRef p h) : inodeRef.Fits p 1 :=
  inodeRef.fits_of_le (Nat.le_trans hh.pos hh.max)

/-- The flag `is_root` of a place. -/
def Place.isRoot : Place → Bool
  | .root => true
  | .block _ => false

instance (p : Place) (h : Ext4ExtentHeader) : Decidable (HeaderOk inodeRef p h) :=
  decidable_of_iff (h.magic = ext4ExtentMagic ∧ h.depth ≤ ext4ExtentMaxDepth ∧
      0 < h.maxEntriesCount ∧ h.entriesCount ≤ h.maxEntriesCount ∧
      h.maxEntriesCount ≤ inodeRef.capacityOf p)
    ⟨fun ⟨a, b, c, d, e⟩ => ⟨a, b, c, d, e⟩, fun ⟨a, b, c, d, e⟩ => ⟨a, b, c, d, e⟩⟩

section Rules

variable {inodeRef} {E : Errno → St → Prop} {s : St} {p : Place} {h : Ext4ExtentHeader}

theorem wp_validateHeader {Q : Unit → St → Prop} :
    wp (validateHeader inodeRef p.isRoot h) Q E s ↔
      (HeaderOk inodeRef p h → Q () s) ∧ (¬ HeaderOk inodeRef p h → E .eio s) := by
  have hcap : (if p.isRoot = true then ext4ExtentRootMaxEntries else capacity inodeRef) =
      inodeRef.capacityOf p := by cases p <;> rfl
  unfold validateHeader
  simp only [hcap, wp_ite, wp_raise, wp_pure]
  have hiff : HeaderOk inodeRef p h ↔ ¬ (h.magic ≠ ext4ExtentMagic ∨
      ext4ExtentMaxDepth < h.depth) ∧ ¬ (h.maxEntriesCount = 0 ∨
      h.maxEntriesCount < h.entriesCount ∨ inodeRef.capacityOf p < h.maxEntriesCount) := by
    constructor
    · rintro ⟨h₁, h₂, h₃, h₄, h₅⟩
      exact ⟨by omega, by omega⟩
    · rintro ⟨h₁, h₂⟩
      exact ⟨by omega, by omega, by omega, by omega, by omega⟩
  rw [hiff]
  tauto

/-! ## All entries of a node -/

end Rules

/-- Leaf extents as `validate_entries` accepts them. -/
structure LeafEntriesOk (es : List Ext4Extent) : Prop where
  inRange : ∀ e ∈ es, extentInRange inodeRef e = true
  sorted : es.Pairwise fun e e' => e.firstBlock + extentGetActualLen e ≤ e'.firstBlock

/-- Index entries as `validate_entries` accepts them. -/
structure IndexEntriesOk (xs : List Ext4ExtentIndex) : Prop where
  inRange : ∀ x ∈ xs, childInRange inodeRef x = true
  sorted : xs.Pairwise fun x x' => x.firstBlock < x'.firstBlock

/-- The entries of a leaf. -/
def Disk.extents (D : Disk) (p : Place) (n : ℕ) : List Ext4Extent :=
  extentLayout.records (D p) n

/-- The entries of an index node. -/
def Disk.indexes (D : Disk) (p : Place) (n : ℕ) : List Ext4ExtentIndex :=
  indexLayout.records (D p) n

def EntriesOk (D : Disk) (p : Place) (h : Ext4ExtentHeader) : Prop :=
  if h.depth = 0 then LeafEntriesOk inodeRef (D.extents p h.entriesCount)
  else IndexEntriesOk inodeRef (D.indexes p h.entriesCount)

section Rules

variable {inodeRef} {E : Errno → St → Prop} {s : St} {p : Place} {h : Ext4ExtentHeader}
variable {Q : Unit → St → Prop}

theorem leafEntriesOk_cons {e : Ext4Extent} {es : List Ext4Extent} :
    LeafEntriesOk inodeRef (e :: es) ↔ extentInRange inodeRef e = true ∧
      (∀ e' ∈ es, e.firstBlock + extentGetActualLen e ≤ e'.firstBlock) ∧
      LeafEntriesOk inodeRef es := by
  constructor
  · rintro ⟨h₁, h₂⟩
    rw [List.pairwise_cons] at h₂
    exact ⟨h₁ e (by simp), h₂.1, fun e' he' => h₁ e' (by simp [he']), h₂.2⟩
  · rintro ⟨h₁, h₂, h₃⟩
    refine ⟨?_, List.pairwise_cons.mpr ⟨h₂, h₃.sorted⟩⟩
    intro e' he'
    rcases List.mem_cons.mp he' with rfl | he'
    · exact h₁
    · exact h₃.inRange e' he'

theorem indexEntriesOk_cons {x : Ext4ExtentIndex} {xs : List Ext4ExtentIndex} :
    IndexEntriesOk inodeRef (x :: xs) ↔ childInRange inodeRef x = true ∧
      (∀ x' ∈ xs, x.firstBlock < x'.firstBlock) ∧ IndexEntriesOk inodeRef xs := by
  constructor
  · rintro ⟨h₁, h₂⟩
    rw [List.pairwise_cons] at h₂
    exact ⟨h₁ x (by simp), h₂.1, fun x' hx' => h₁ x' (by simp [hx']), h₂.2⟩
  · rintro ⟨h₁, h₂, h₃⟩
    refine ⟨?_, List.pairwise_cons.mpr ⟨h₂, h₃.sorted⟩⟩
    intro x' hx'
    rcases List.mem_cons.mp hx' with rfl | hx'
    · exact h₁
    · exact h₃.inRange x' hx'

/-- The loop on a leaf, over the entries from `i` on. -/
theorem validateEntriesLoop_leaf (hd : h.depth = 0) : ∀ (n i pe pk : ℕ),
    inodeRef.Fits p (i + n) →
    Decides (validateEntriesLoop inodeRef p h n i pe pk) s .eio
      ((0 < i → ∀ e ∈ (List.range' i n).map (s.bytes.extent p), pe ≤ e.firstBlock) ∧
        LeafEntriesOk inodeRef ((List.range' i n).map (s.bytes.extent p))) := by
  intro n
  induction n with
  | zero =>
      intro i pe pk _
      exact Decides.skip.iff (by simpa using (⟨by simp, by simp⟩ : LeafEntriesOk inodeRef []))
  | succ n ih =>
      intro i pe pk hin
      unfold validateEntriesLoop
      rw [if_pos hd, List.range'_succ, List.map_cons]
      have rest := ih (i + 1) ((s.bytes.extent p i).firstBlock + extentGetActualLen (s.bytes.extent p i)) pk
        (hin.mono (by omega))
      refine ((Decides.raiseIf fun _ => Decides.raiseIf fun _ => rest).bind
        (loadExtent_eq (hin.mono (by omega)))).iff ?_
      rw [leafEntriesOk_cons, List.forall_mem_cons]
      generalize (List.range' (i + 1) n).map (s.bytes.extent p) = es
      constructor
      · rintro ⟨h₁, h₂, h₃, h₄⟩
        refine ⟨fun hi => ⟨by omega, fun e he => ?_⟩, by simpa using h₁, h₃ (by omega), h₄⟩
        have := h₃ (by omega) e he
        omega
      · rintro ⟨h₁, h₂, h₃, h₄⟩
        refine ⟨by simpa using h₂, fun hc => ?_, fun _ => h₃, h₄⟩
        have := (h₁ hc.1).1
        omega

theorem validateEntriesLoop_index (hd : h.depth ≠ 0) : ∀ (n i pe pk : ℕ),
    inodeRef.Fits p (i + n) →
    Decides (validateEntriesLoop inodeRef p h n i pe pk) s .eio
      ((0 < i → ∀ x ∈ (List.range' i n).map (s.bytes.index p), pk < x.firstBlock) ∧
        IndexEntriesOk inodeRef ((List.range' i n).map (s.bytes.index p))) := by
  intro n
  induction n with
  | zero =>
      intro i pe pk _
      exact Decides.skip.iff (by simpa using (⟨by simp, by simp⟩ : IndexEntriesOk inodeRef []))
  | succ n ih =>
      intro i pe pk hin
      unfold validateEntriesLoop
      rw [if_neg hd, List.range'_succ, List.map_cons]
      have rest := ih (i + 1) pe (s.bytes.index p i).firstBlock (hin.mono (by omega))
      refine ((Decides.raiseIf fun _ => rest).bind
        (loadIndex_eq (hin.mono (by omega)))).iff ?_
      rw [indexEntriesOk_cons, List.forall_mem_cons]
      generalize (List.range' (i + 1) n).map (s.bytes.index p) = xs
      constructor
      · rintro ⟨h₁, h₂, h₃⟩
        have hr : childInRange inodeRef (s.bytes.index p i) = true := by
          by_contra hr
          exact h₁ (Or.inl (by simpa using hr))
        have hlt : 0 < i → pk < (s.bytes.index p i).firstBlock := fun hi => by
          by_contra hle
          exact h₁ (Or.inr ⟨hi, by omega⟩)
        refine ⟨fun hi => ⟨hlt hi, fun x hx => ?_⟩, hr, h₂ (by omega), h₃⟩
        have := hlt hi
        have := h₂ (by omega) x hx
        omega
      · rintro ⟨h₁, h₂, h₃, h₄⟩
        refine ⟨?_, fun _ => h₃, h₄⟩
        rintro (hr | ⟨hi, hle⟩)
        · exact absurd h₂ (by simp [hr])
        · have := (h₁ hi).1
          omega

/-- The loop of `validate_entries` passes exactly on acceptable nodes. -/
theorem validateEntriesLoop_decides (hin : inodeRef.Fits p h.entriesCount) :
    Decides (validateEntriesLoop inodeRef p h h.entriesCount 0 0 0) s .eio
      (EntriesOk inodeRef s.bytes p h) := by
  unfold EntriesOk
  by_cases hd : h.depth = 0
  · refine (validateEntriesLoop_leaf hd _ 0 0 0 (by simpa using hin)).iff ?_
    rw [if_pos hd, ← List.range_eq_range']
    simp only [Nat.lt_irrefl, false_implies, true_and]
    exact Iff.rfl
  · refine (validateEntriesLoop_index hd _ 0 0 0 (by simpa using hin)).iff ?_
    rw [if_neg hd, ← List.range_eq_range']
    simp only [Nat.lt_irrefl, false_implies, true_and]
    exact Iff.rfl

theorem wp_validateEntries (hin : inodeRef.Fits p h.entriesCount) :
    wp (validateEntries inodeRef p h) Q E s ↔
      (EntriesOk inodeRef s.bytes p h → Q () (s.logAll (entryEvents (s.bytes p) h))) ∧
      (¬ EntriesOk inodeRef s.bytes p h → E .eio s) := by
  unfold validateEntries
  rw [wp_bind, (validateEntriesLoop_decides hin).wp_iff, wp_update]

theorem mem_entryEvents {d : Bytes} {ev : Event} (hev : ev ∈ entryEvents d h) :
    ∃ first count, ev = .checked first count := by
  unfold entryEvents at hev
  split at hev
  · obtain ⟨e, -, rfl⟩ := List.mem_map.mp hev
    exact ⟨_, _, rfl⟩
  · obtain ⟨x, -, rfl⟩ := List.mem_map.mp hev
    exact ⟨_, _, rfl⟩

/-- Noting the entries of a node changes nothing. -/
theorem Reads.entryEvents (s : St) (d : Bytes) (h : Ext4ExtentHeader) :
    Reads s (s.logAll (entryEvents d h)) := by
  refine ⟨rfl, rfl, _, rfl, fun ev hev => ?_⟩
  obtain ⟨first, count, rfl⟩ := mem_entryEvents (List.mem_reverse.mp hev)
  rfl

theorem wp_validateEntries_reads (hin : inodeRef.Fits p h.entriesCount)
    (hQ : EntriesOk inodeRef s.bytes p h → ∀ s', Reads s s' → Q () s')
    (hE : ¬ EntriesOk inodeRef s.bytes p h → E .eio s) :
    wp (validateEntries inodeRef p h) Q E s :=
  (wp_validateEntries hin).mpr ⟨fun hok => hQ hok _ (.entryEvents s (s.bytes p) h), hE⟩

/-! ## The selected entry -/

end Rules

/-- What `validate_selected_entry` accepts at `pos`. -/
def SelectedOk (D : Disk) (p : Place) (h : Ext4ExtentHeader) (pos : ℕ) : Prop :=
  pos < h.entriesCount ∧
  if h.depth = 0 then
    extentInRange inodeRef (D.extent p pos) = true ∧
    (0 < pos → D.key p (pos - 1) + extentGetActualLen (D.extent p (pos - 1)) ≤ D.key p pos) ∧
    (pos + 1 < h.entriesCount →
      D.key p pos + extentGetActualLen (D.extent p pos) ≤ D.key p (pos + 1))
  else
    childInRange inodeRef (D.index p pos) = true ∧
    (0 < pos → D.key p (pos - 1) < D.key p pos) ∧
    (pos + 1 < h.entriesCount → D.key p pos < D.key p (pos + 1))

/-- The note `validate_selected_entry` leaves of an accepted entry. -/
def checkedEvent (D : Disk) (p : Place) (h : Ext4ExtentHeader) (pos : ℕ) : Event :=
  if h.depth = 0 then
    .checked (extentGetPblock (D.extent p pos)) (extentGetActualLen (D.extent p pos))
  else .checked (indexGetPblock (D.index p pos)) 1

section Rules

variable {inodeRef} {E : Errno → St → Prop} {s : St} {p : Place} {h : Ext4ExtentHeader}
variable {Q : Unit → St → Prop} {pos : ℕ}

theorem checkPreviousExtent_decides (e : Ext4Extent) (hin : inodeRef.Fits p pos) :
    Decides (checkPreviousExtent inodeRef p pos e) s .eio
      (0 < pos → ¬ e.firstBlock <
        (s.bytes.extent p (pos - 1)).firstBlock + extentGetActualLen (s.bytes.extent p (pos - 1))) :=
  Decides.whenever fun _ => Decides.bind (loadExtent_eq (hin.mono (by omega))) (.failIf _)

theorem checkNextExtent_decides (e : Ext4Extent) {n : ℕ} (hin : inodeRef.Fits p n) :
    Decides (checkNextExtent inodeRef p n pos e) s .eio
      (pos + 1 < n → ¬ (s.bytes.extent p (pos + 1)).firstBlock <
        e.firstBlock + extentGetActualLen e) :=
  Decides.whenever fun hn => Decides.bind (loadExtent_eq (hin.mono hn)) (.failIf _)

theorem checkPreviousIndex_decides (x : Ext4ExtentIndex) (hin : inodeRef.Fits p pos) :
    Decides (checkPreviousIndex inodeRef p pos x) s .eio
      (0 < pos → ¬ x.firstBlock ≤ (s.bytes.index p (pos - 1)).firstBlock) :=
  Decides.whenever fun _ => Decides.bind (loadIndex_eq (hin.mono (by omega))) (.failIf _)

theorem checkNextIndex_decides (x : Ext4ExtentIndex) {n : ℕ} (hin : inodeRef.Fits p n) :
    Decides (checkNextIndex inodeRef p n pos x) s .eio
      (pos + 1 < n → ¬ (s.bytes.index p (pos + 1)).firstBlock ≤ x.firstBlock) :=
  Decides.whenever fun hn => Decides.bind (loadIndex_eq (hin.mono hn)) (.failIf _)

/-- Two checks in a row are one check of both. -/
theorem check_and {a b c d : Prop} :
    ((a → (b → c) ∧ (¬ b → d)) ∧ (¬ a → d)) ↔ ((a ∧ b → c) ∧ (¬ (a ∧ b) → d)) := by
  by_cases ha : a <;> simp [ha]

theorem wp_validateSelectedEntry (hin : inodeRef.Fits p h.entriesCount) :
    wp (validateSelectedEntry inodeRef p h pos) Q E s ↔
      (SelectedOk inodeRef s.bytes p h pos → Q () (s.log (checkedEvent s.bytes p h pos))) ∧
      (¬ SelectedOk inodeRef s.bytes p h pos → E .eio s) := by
  unfold validateSelectedEntry SelectedOk checkedEvent
  by_cases hlt : h.entriesCount ≤ pos
  · rw [if_pos hlt, wp_raise]
    have : ¬ pos < h.entriesCount := by omega
    simp [this]
  have hpos : pos < h.entriesCount := by omega
  rw [if_neg hlt, and_iff_right hpos]
  by_cases hd : h.depth = 0
  · rw [if_pos hd, if_pos hd, if_pos hd, wp_bind, wp_loadExtent, and_iff_right (hin.mono hpos),
      wp_bind, (Decides.failIf _).wp_iff, wp_bind,
      (checkPreviousExtent_decides _ (hin.mono (by omega))).wp_iff, wp_bind,
      (checkNextExtent_decides _ hin).wp_iff, wp_update]
    simp only [Disk.extent_firstBlock, Nat.not_lt, Bool.not_eq_false, check_and]
  · rw [if_neg hd, if_neg hd, if_neg hd, wp_bind, wp_loadIndex, and_iff_right (hin.mono hpos),
      wp_bind, (Decides.failIf _).wp_iff, wp_bind,
      (checkPreviousIndex_decides _ (hin.mono (by omega))).wp_iff, wp_bind,
      (checkNextIndex_decides _ hin).wp_iff, wp_update]
    simp only [Disk.index_firstBlock, Nat.not_le, Bool.not_eq_false, check_and]

/-- In a node all of whose entries are acceptable, every selection is. -/
theorem EntriesOk.selectedOk {D : Disk} (he : EntriesOk inodeRef D p h)
    (hpos : pos < h.entriesCount) : SelectedOk inodeRef D p h pos := by
  refine ⟨hpos, ?_⟩
  unfold EntriesOk at he
  split at he
  · rename_i hd
    have key : ∀ i j, i < j → j < h.entriesCount →
        D.key p i + extentGetActualLen (D.extent p i) ≤ D.key p j := by
      intro i j hij hj
      have := List.pairwise_iff_getElem.mp he.sorted i j (by simp [Disk.extents]; omega)
        (by simp [Disk.extents]; omega) hij
      simp only [Disk.extents, Layout.getElem_records] at this
      exact this
    rw [if_pos hd]
    refine ⟨he.inRange _ ?_, fun h0 => key _ _ (by omega) hpos, fun hn => key _ _ (by omega) hn⟩
    exact List.mem_map.mpr ⟨pos, List.mem_range.mpr hpos, rfl⟩
  · rename_i hd
    have key : ∀ i j, i < j → j < h.entriesCount → D.key p i < D.key p j := by
      intro i j hij hj
      have := List.pairwise_iff_getElem.mp he.sorted i j (by simp [Disk.indexes]; omega)
        (by simp [Disk.indexes]; omega) hij
      simp only [Disk.indexes, Layout.getElem_records] at this
      exact this
    rw [if_neg hd]
    refine ⟨he.inRange _ ?_, fun h0 => key _ _ (by omega) hpos, fun hn => key _ _ (by omega) hn⟩
    exact List.mem_map.mpr ⟨pos, List.mem_range.mpr hpos, rfl⟩

/-! ## Checksums -/

end Rules

/-- What `verify_extent_block_checksum` accepts. -/
def CsumOk (d : Bytes) : Prop :=
  inodeRef.metadataCsum = true →
    (headerLoad d).magic = ext4ExtentMagic ∧
    tailOffset (headerLoad d) + 4 ≤ inodeRef.blockSize ∧
    Bytes.readLe32 d (tailOffset (headerLoad d)) =
      extentBlockChecksum inodeRef d (tailOffset (headerLoad d))

/-- A block with its checksum word brought up to date. -/
def withChecksum (d : Bytes) : Bytes :=
  if inodeRef.metadataCsum = true then
    d.writeLe32 (tailOffset (headerLoad d))
      (extentBlockChecksum inodeRef d (tailOffset (headerLoad d)))
  else d

section Rules

variable {inodeRef} {E : Errno → St → Prop} {s : St} {b : ℕ}
variable {Q : Unit → St → Prop}

theorem wp_verifyExtentBlockChecksum :
    wp (verifyExtentBlockChecksum inodeRef (.block b)) Q E s ↔
      (CsumOk inodeRef (s.bytes (.block b)) → Q () s) ∧
      (¬ CsumOk inodeRef (s.bytes (.block b)) → E .eio s) := by
  unfold verifyExtentBlockChecksum CsumOk
  by_cases hc : inodeRef.metadataCsum = true
  · rw [if_neg (by simp [hc]), wp_bind, wp_loadHeader, wp_ite, wp_raise]
    show (_ → _) ∧ (¬ (headerLoad (s.bytes (.block b))).magic ≠ _ → _) ↔ _
    by_cases hm : (headerLoad (s.bytes (.block b))).magic = ext4ExtentMagic
    · simp only [wp_ite, wp_bind, wp_peek, wp_raise, wp_pure]
      have hs : s.bytes.header (.block b) = headerLoad (s.bytes (.block b)) := rfl
      rw [hs]
      by_cases ht : tailOffset (headerLoad (s.bytes (.block b))) + 4 ≤ inodeRef.blockSize
      · have h0 : 0 + tailOffset (headerLoad (s.bytes (.block b))) ≤
            inodeRef.bufSize (.block b) := by
          show _ ≤ inodeRef.blockSize; omega
        have h1 : tailOffset (headerLoad (s.bytes (.block b))) + 4 ≤
            inodeRef.bufSize (.block b) := ht
        have h2 : ¬ (inodeRef.blockSize < tailOffset (headerLoad (s.bytes (.block b))) ∨
            inodeRef.blockSize < tailOffset (headerLoad (s.bytes (.block b))) + 4) := by omega
        simp only [hm, h0, h1, h2, ht, hc]
        simp
      · have h2 : inodeRef.blockSize < tailOffset (headerLoad (s.bytes (.block b))) + 4 := by
          omega
        simp [hm, h2, ht, hc]
    · have hs : s.bytes.header (.block b) = headerLoad (s.bytes (.block b)) := rfl
      simp [hs, hm, hc]
  · simp only [Bool.not_eq_true] at hc
    simp [hc]

/-- Writing the checksum, on a node whose declared entries leave room for it. -/
theorem wp_setExtentBlockChecksum
    (hm : (headerLoad (s.bytes (.block b))).magic = ext4ExtentMagic)
    (ht : tailOffset (headerLoad (s.bytes (.block b))) + 4 ≤ inodeRef.blockSize)
    (hQ : Q () (s.setBytes (.block b) (withChecksum inodeRef (s.bytes (.block b)))))
    (hQ' : inodeRef.metadataCsum = false → Q () s) :
    wp (setExtentBlockChecksum inodeRef (.block b) false) Q E s := by
  unfold setExtentBlockChecksum
  rw [if_neg (by simp)]
  by_cases hc : inodeRef.metadataCsum = true
  · rw [if_neg (by simp [hc]), wp_bind, wp_loadHeader]
    have hs : s.bytes.header (.block b) = headerLoad (s.bytes (.block b)) := rfl
    rw [hs, if_neg (by simp [hm]), wp_ite]
    refine ⟨fun h => by omega, fun _ => ?_⟩
    simp only [wp_bind, wp_peek, wp_poke]
    refine ⟨by show _ ≤ inodeRef.blockSize; omega, ht, ?_⟩
    unfold withChecksum at hQ
    rwa [if_pos hc] at hQ
  · simp only [Bool.not_eq_true] at hc
    rw [if_pos hc]
    exact hQ' hc

/-- Behind the declared entries of an acceptable block there is room for the
checksum. -/
theorem HeaderOk.tail {h : Ext4ExtentHeader} (hh : HeaderOk inodeRef (.block b) h) :
    tailOffset h + 4 ≤ inodeRef.blockSize := by
  have h₁ := inodeRef.tail_room
  have h₂ : h.maxEntriesCount ≤ capacity inodeRef := hh.max
  unfold tailOffset ext4ExtentHeaderSize ext4ExtentSize
  omega

end Rules

end EspLwext4
