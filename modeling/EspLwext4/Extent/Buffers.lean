import EspLwext4.Extent.Split

/-!
# The bytes of one node

What the moves and stores of each function leave in the buffer it edits: a header that
differs in the count alone, the entries of a list edit, and the old bytes behind the
declared entries, but for the checksum.
-/

namespace EspLwext4

open Prog Bytes

variable (inodeRef : InodeRef)

/-- `d'` is `d` with the entries `es`. -/
structure Relisted (d d' : Bytes) (es : List Ext4Extent) : Prop where
  header : headerLoad d' = (headerLoad d).withCount es.length
  entries : extentLayout.records d' es.length = es
  behind : ∀ i, tailOffset (headerLoad d) ≤ i → d' i = d i

/-- Byte `i` belongs to the checksum of the node at `p`. -/
def InChecksum (p : Place) (h : Ext4ExtentHeader) (i : ℕ) : Prop :=
  p ≠ .root ∧ inodeRef.metadataCsum = true ∧ tailOffset h ≤ i ∧ i < tailOffset h + 4

/-- Between `s` and `s'` the node at `p` was edited: its header and entries decode to the
list `es` with its length for the count, all else in the header stays, and so does every byte
behind the declared entries but the checksum, and every other node. -/
structure Edited {ρ : Type} (L : Layout ρ) (s s' : St) (p : Place) (es : List ρ) : Prop where
  others : ∀ q, q ≠ p → s'.bytes q = s.bytes q
  header : s'.bytes.header p = (s.bytes.header p).withCount es.length
  entries : L.records (s'.bytes p) es.length = es
  behind : ∀ i, tailOffset (s.bytes.header p) ≤ i →
    ¬ InChecksum inodeRef p (s.bytes.header p) i → s'.bytes p i = s.bytes p i

/-- What `remove_leaf` leaves of the entries from its position on. -/
def keptEntries (first last : ℕ) : List Ext4Extent → List Ext4Extent
  | [] => []
  | ex :: es =>
      if last < ex.firstBlock then ex :: es
      else if sub32 (u32 (ex.firstBlock + extentGetActualLen ex)) 1 < first then
        ex :: keptEntries first last es
      else
        match (trimExtent ex first last).2 with
        | none => keptEntries first last es
        | some kept => kept :: keptEntries first last es

/-- Where a separator goes: behind all entries up to the first larger key. -/
def separatorPos (xs : List Ext4ExtentIndex) (firstBlock : ℕ) : ℕ :=
  (xs.takeWhile fun x => decide (x.firstBlock ≤ firstBlock)).length

/-- A call that frees blocks failed between `s` and `s'`. -/
def FreeFailed (s s' : St) (err : Errno) : Prop :=
  ∃ b n, CallFailed inodeRef s s' (.ballocFreeBlocks b n) err

/-- The buffer at `p` lists `es`, and the rest of `s` is as in `s₀`. -/
def Relists (s₀ s : St) (p : Place) (es : List Ext4Extent) : Prop :=
  ∃ d, s.bytes = s₀.bytes.set p d ∧ Relisted (s₀.bytes p) d es

/-- The key of the first of some entries, 0 when there is none. -/
def firstKey (es : List Ext4Extent) : ℕ := (es.head?.map (·.firstBlock)).getD 0

/-- The path node `node` is a copy of a valid header. -/
structure Held (s : St) (node : ExtentPathNode) : Prop where
  copy : node.header = s.bytes.header node.place
  ok : HeaderOk inodeRef node.place node.header

section Bytes

variable {d d₁ d' : Bytes} {pos n m i j write : ℕ} {l r es done : List Ext4Extent}
variable {x y z : Ext4Extent}

/-! ## Behind the entries -/

theorem tailOffset_eq (h : Ext4ExtentHeader) : tailOffset h = entryOff h.maxEntriesCount := rfl

theorem entryOff_mono (h : n ≤ m) : entryOff n ≤ entryOff m := extentLayout.off_mono h

theorem extentStore_behind (e : Ext4Extent) (hpos : pos < m) (hi : entryOff m ≤ i) :
    extentStore d (entryOff pos) e i = d i :=
  extentStore_outside e (Or.inr (Nat.le_trans (extentLayout.off_add_width_le hpos) hi))

theorem indexStore_behind (e : Ext4ExtentIndex) (hpos : pos < m) (hi : entryOff m ≤ i) :
    indexStore d (entryOff pos) e i = d i :=
  indexStore_outside e (Or.inr (Nat.le_trans (extentLayout.off_add_width_le hpos) hi))

/-- A move of entries ends where the last of them ends. -/
theorem copy_behind {src : Bytes} (o : ℕ) (h : pos + n ≤ m) (hi : entryOff m ≤ i) :
    d.copy (entryOff pos) src o (n * 12) i = d i := by
  refine copy_of_outside (Or.inr (Nat.le_trans ?_ hi))
  have hadd : entryOff (pos + n) = entryOff pos + n * 12 := extentLayout.off_add pos n
  rw [← hadd]
  exact entryOff_mono h

theorem opened_behind (h : n < m) (hi : entryOff m ≤ i) : opened d pos n i = d i := by
  unfold opened
  split
  · exact copy_behind _ (by omega) hi
  · rfl

theorem closed_behind (h : n ≤ m) (hpos : pos < n) (hi : entryOff m ≤ i) :
    closed d pos n i = d i := copy_behind _ (by omega) hi

/-! ## The edits -/

theorem records_asIndex (d : Bytes) (n : ℕ) :
    indexLayout.records d n = (extentLayout.records d n).map (·.asIndex) := by
  unfold Layout.records
  rw [List.map_map]
  exact List.map_congr_left fun i _ => indexLoad_eq _ _

/-- Counting the entries that stand in the buffer. -/
theorem Relisted.of_records (hrec : extentLayout.records d₁ es.length = es)
    (hlen : es.length < 65536)
    (hbehind : ∀ i, tailOffset (headerLoad d) ≤ i → d₁ i = d i) :
    Relisted d (headerStore d₁ ((headerLoad d).withCount es.length)) es := by
  refine ⟨headerLoad_headerStore ((headerLoad_fits d).withCount hlen), ?_, fun i hi => ?_⟩
  · rw [records_headerStore, hrec]
  · rw [headerStore_outside _ (Nat.le_trans (Nat.le_add_right 12 _) hi)]
    exact hbehind i hi

/-- Opening a gap and filling it. -/
theorem Relisted.insert (hs : extentLayout.records d (l ++ r).length = l ++ r)
    (hroom : (l ++ r).length < (headerLoad d).maxEntriesCount)
    (hy : extentLayout.get d₁ l.length = y)
    (hne : ∀ i, i ≠ l.length →
      extentLayout.get d₁ i = extentLayout.get (opened d l.length (l ++ r).length) i)
    (hbehind : ∀ i, tailOffset (headerLoad d) ≤ i →
      d₁ i = opened d l.length (l ++ r).length i) :
    Relisted d (headerStore d₁ ((headerLoad d).withCount ((l ++ r).length + 1))) (l ++ y :: r) := by
  have hmax := (headerLoad_fits d).maxEntriesCount
  have hlen : (l ++ y :: r).length = (l ++ r).length + 1 := by simp [Nat.add_assoc]
  have hrec := records_opened hs rfl hy hne
  rw [← hlen] at hrec ⊢
  refine .of_records hrec (by omega) fun i hi => ?_
  rw [hbehind i hi]
  exact opened_behind hroom hi

/-- Replacing an entry by two. -/
theorem Relisted.replaceTwo (hs : extentLayout.records d (l ++ x :: r).length = l ++ x :: r)
    (hroom : (l ++ x :: r).length < (headerLoad d).maxEntriesCount) (hy : y.Fits) (hz : z.Fits) :
    Relisted d (headerStore (extentStore (extentStore
        (opened d (l.length + 1) (l ++ x :: r).length) (entryOff l.length) y)
        (entryOff (l.length + 1)) z) ((headerLoad d).withCount ((l ++ x :: r).length + 1)))
      (l ++ y :: z :: r) := by
  have hmax := (headerLoad_fits d).maxEntriesCount
  have hcount : (l ++ x :: r).length = l.length + 1 + r.length := by
    simp [Nat.add_comm, Nat.add_left_comm]
  have hlen : (l ++ y :: z :: r).length = (l ++ x :: r).length + 1 := by
    simp [Nat.add_assoc]
  -- first the second entry alone, with the old one still in front of it
  have hsecond : extentLayout.records (extentStore (opened d (l.length + 1) (l ++ x :: r).length)
      (entryOff (l.length + 1)) z) ((l ++ x :: r).length + 1) = l ++ x :: z :: r := by
    have hsplit : l ++ x :: r = (l ++ [x]) ++ r := by simp
    have hpos : l.length + 1 = (l ++ [x]).length := by simp
    have hrec := records_opened (y := z) (hs.trans hsplit) hpos (extent_get_extentStore_self hz)
      fun i hi => extent_get_extentStore_ne hi
    rw [hrec]
    simp
  have hboth : extentLayout.records (extentStore
      (extentStore (opened d (l.length + 1) (l ++ x :: r).length) (entryOff l.length) y)
      (entryOff (l.length + 1)) z) ((l ++ x :: r).length + 1) = l ++ y :: z :: r := by
    refine extentLayout.records_set hsecond ?_ ?_
    · rw [extent_get_extentStore_ne (by omega)]
      exact extent_get_extentStore_self hy
    · intro i _ hi
      rcases Nat.lt_or_ge i (l.length + 1) with hlt | hge
      · rw [extent_get_extentStore_ne (by omega), extent_get_extentStore_ne (by omega),
          extent_get_extentStore_ne (by omega)]
      · rcases Nat.lt_or_eq_of_le hge with hgt | rfl
        · rw [extent_get_extentStore_ne (by omega), extent_get_extentStore_ne (by omega),
            extent_get_extentStore_ne (by omega)]
        · rw [extent_get_extentStore_self hz, extent_get_extentStore_self hz]
  rw [← hlen] at hboth ⊢
  refine .of_records hboth (by omega) fun i hi => ?_
  rw [extentStore_behind z (by omega) hi, extentStore_behind y (by omega) hi]
  exact opened_behind hroom hi

/-- Closing over an entry; what the last slot holds then does not count. -/
theorem Relisted.delete (hs : extentLayout.records d (l ++ x :: r).length = l ++ x :: r)
    (hle : (l ++ x :: r).length ≤ (headerLoad d).maxEntriesCount)
    (hlo : ∀ i, i + 1 < (l ++ x :: r).length →
      extentLayout.get d₁ i = extentLayout.get (closed d l.length (l ++ x :: r).length) i)
    (hbehind : ∀ i, tailOffset (headerLoad d) ≤ i → d₁ i = d i) :
    Relisted d (headerStore d₁ ((headerLoad d).withCount ((l ++ x :: r).length - 1))) (l ++ r) := by
  have hmax := (headerLoad_fits d).maxEntriesCount
  have hlen : (l ++ r).length = (l ++ x :: r).length - 1 := by simp
  have hrec := records_closed hs rfl hlo
  rw [← hlen] at hrec ⊢
  exact .of_records hrec (by omega) hbehind

/-! ## Compaction -/

/-- The buffer `d` while `remove_leaf` rebuilds the `n` entries `es` of `d₀`: `done` stands in
front of `write`, and from entry `i` on all is as it was. -/
structure Compacting (d₀ d : Bytes) (n i write : ℕ) (done : List Ext4Extent) : Prop where
  written : done.length = write
  le : write ≤ i
  bound : i ≤ n
  done : extentLayout.records d write = done
  rest : ∀ j, i ≤ j → extentLayout.get d j = extentLayout.get d₀ j
  outside : ∀ j, j < 12 ∨ entryOff n ≤ j → d j = d₀ j

theorem Compacting.start (d : Bytes) (h : pos ≤ n) :
    Compacting d d n pos pos (extentLayout.records d pos) :=
  ⟨by simp, Nat.le_refl _, h, rfl, fun _ _ => rfl, fun _ _ => rfl⟩

/-- Leaving an entry out. -/
theorem Compacting.drop {d₀ : Bytes} (h : Compacting d₀ d n i write done) (hi : i < n) :
    Compacting d₀ d n (i + 1) write done :=
  ⟨h.written, Nat.le_succ_of_le h.le, hi, h.done, fun j hj => h.rest j (by omega), h.outside⟩

/-- Storing what is kept of an entry. -/
theorem Compacting.keep {d₀ : Bytes} (h : Compacting d₀ d n i write done) (hi : i < n)
    (hy : y.Fits) :
    Compacting d₀ (extentStore d (entryOff write) y) n (i + 1) (write + 1) (done ++ [y]) := by
  have hle := h.le
  obtain rfl := h.written
  refine ⟨by simp, by omega, hi, ?_, fun j hj => ?_, fun j hj => ?_⟩
  · rw [extentLayout.records_eq_iff]
    refine ⟨by simp, fun j hj => ?_⟩
    rw [List.length_append, List.length_singleton] at hj
    rcases Nat.lt_or_eq_of_le (Nat.le_of_lt_succ hj) with hlt | rfl
    · rw [extent_get_extentStore_ne (by omega), List.getElem_append_left hlt]
      exact ((extentLayout.records_eq_iff).mp h.done).2 j hlt
    · rw [extent_get_extentStore_self hy]
      simp
  · rw [extent_get_extentStore_ne (by omega)]
    exact h.rest j (by omega)
  · rw [← h.outside j hj]
    refine extentStore_outside y (hj.imp ?_ ?_)
    · exact fun hj => Nat.lt_of_lt_of_le hj (le_entryOff _)
    · exact fun hj => Nat.le_trans (extentLayout.off_add_width_le (show done.length < n by omega)) hj

/-- The entries from `i` on move up behind `done`. -/
theorem Compacting.close {d₀ : Bytes} (h : Compacting d₀ d n i write done) :
    extentLayout.records (d.copy (entryOff write) d (entryOff i) ((n - i) * 12))
      (done ++ (extentLayout.records d₀ n).drop i).length =
      done ++ (extentLayout.records d₀ n).drop i := by
  have hwritten := h.written
  have hbound := h.bound
  rw [extentLayout.records_eq_iff]
  refine ⟨rfl, fun j hj => ?_⟩
  rw [List.length_append, List.length_drop, Layout.length_records, hwritten] at hj
  rcases Nat.lt_or_ge j write with hlt | hge
  · rw [List.getElem_append_left (by omega)]
    have hget : extentLayout.get (d.copy (entryOff write) d (entryOff i) ((n - i) * 12)) j =
        extentLayout.get d j := extentLayout.get_copy_outside (Or.inl hlt)
    rw [hget]
    exact ((extentLayout.records_eq_iff).mp h.done).2 j (by omega)
  · rw [List.getElem_append_right (by omega), List.getElem_drop, Layout.getElem_records]
    have hget : extentLayout.get (d.copy (entryOff write) d (entryOff i) ((n - i) * 12)) j =
        extentLayout.get d (i + (j - write)) := extentLayout.get_copy_inside hge (by omega)
    rw [hget, h.rest _ (by omega), hwritten]

/-- Without a move nothing is to be closed: nothing was left out, or nothing is left. -/
theorem Compacting.close_still {d₀ : Bytes} (h : Compacting d₀ d n i write done)
    (hstill : ¬ (write ≠ i ∧ i < n)) :
    extentLayout.records d (done ++ (extentLayout.records d₀ n).drop i).length =
      done ++ (extentLayout.records d₀ n).drop i := by
  have hwritten := h.written
  have hbound := h.bound
  rw [extentLayout.records_eq_iff]
  refine ⟨rfl, fun j hj => ?_⟩
  rw [List.length_append, List.length_drop, Layout.length_records, hwritten] at hj
  rcases Nat.lt_or_ge j write with hlt | hge
  · rw [List.getElem_append_left (by omega)]
    exact ((extentLayout.records_eq_iff).mp h.done).2 j (by omega)
  · obtain rfl : write = i := by omega
    rw [List.getElem_append_right (by omega), List.getElem_drop, Layout.getElem_records,
      h.rest j hge, hwritten]
    congr 1
    omega

/-! ## Positions -/

theorem insertIdx_append {α : Type} (l r : List α) (a : α) :
    (l ++ r).insertIdx l.length a = l ++ a :: r := by
  induction l with
  | nil => rfl
  | cons b l ih => exact congrArg (b :: ·) ih

theorem length_takeWhile_eq {f : Ext4ExtentIndex → Bool} {xs : List Ext4ExtentIndex} {pos : ℕ}
    (hpos : pos ≤ xs.length) (hle : ∀ i (hi : i < xs.length), i < pos → f xs[i] = true)
    (hgt : ∀ (hi : pos < xs.length), f xs[pos] = false) : (xs.takeWhile f).length = pos := by
  induction xs generalizing pos with
  | nil => exact (Nat.le_zero.mp hpos).symm
  | cons x xs ih =>
      rcases pos with _ | pos
      · have := hgt (Nat.succ_pos _)
        rw [List.getElem_cons_zero] at this
        rw [List.takeWhile_cons_of_neg (by simp [this])]
        rfl
      · have := hle 0 (Nat.succ_pos _) (Nat.succ_pos _)
        rw [List.getElem_cons_zero] at this
        rw [List.takeWhile_cons_of_pos this, List.length_cons]
        congr 1
        refine ih (Nat.le_of_succ_le_succ hpos) (fun i hi hlt => ?_) fun hi => ?_
        · exact hle (i + 1) (Nat.succ_lt_succ hi) (Nat.succ_lt_succ hlt)
        · exact hgt (Nat.succ_lt_succ hi)

/-- A separator goes where the linear scan ends. -/
theorem separatorPos_eq {D : Disk} {p : Place} {k : ℕ} (hpos : pos ≤ n)
    (hle : ∀ i < pos, D.key p i ≤ k) (hgt : pos = n ∨ k < D.key p pos) :
    separatorPos (D.indexes p n) k = pos := by
  have hlen : (D.indexes p n).length = n := indexLayout.length_records
  have hkeys {i : ℕ} (hi : i < (D.indexes p n).length) :
      (D.indexes p n)[i].firstBlock = D.key p i := by
    simp only [Disk.indexes]
    rw [Layout.getElem_records]
    rfl
  refine length_takeWhile_eq (by omega) (fun i hi hlt => ?_) fun hi => ?_
  · rw [hkeys hi]
    exact decide_eq_true (hle i hlt)
  · rw [hkeys hi]
    exact decide_eq_false (Nat.not_le.mpr (hgt.resolve_left (by omega)))

/-! ## What a trim stores -/

theorem fits_kept (hn : n < 4294967296) (hm : m < 65536) (b : ℕ) :
    let kept := extentSetActualLen (extentStorePblock { x with firstBlock := n } b) m
    kept.Fits ∧ (extentMarkUnwritten kept).Fits := by
  have hlo : u32 b < 4294967296 := Nat.mod_lt _ (by decide)
  have hhi : u16 (b / 4294967296) < 65536 := Nat.mod_lt _ (by decide)
  have hmark : m ||| extInitMaxLen < 2 ^ 16 := Nat.or_lt_two_pow hm (by decide)
  exact ⟨⟨hn, hm, hhi, hlo⟩, hn, hmark, hhi, hlo⟩

theorem trimExtent_fits {first last : ℕ} (hx : x.Fits) (h : (trimExtent x first last).2 = some y) :
    y.Fits := by
  have hu16 (k : ℕ) : u16 k < 65536 := Nat.mod_lt _ (by decide)
  have hu32 (k : ℕ) : u32 k < 4294967296 := Nat.mod_lt _ (by decide)
  -- both ways to keep a part go through the same three stores
  have hkeep {start b len : ℕ} (hs : start < 4294967296) (hlen : len < 65536)
      (hk : (if len = 0 then none else
        some (if extentIsUnwritten x then
          extentMarkUnwritten (extentSetActualLen (extentStorePblock { x with firstBlock := start } b) len)
          else extentSetActualLen (extentStorePblock { x with firstBlock := start } b) len)) = some y) :
      y.Fits := by
    obtain ⟨hplain, hmarked⟩ := fits_kept (x := x) hs hlen b
    split at hk
    · cases hk
    · obtain rfl := Option.some.inj hk
      split
      · exact hmarked
      · exact hplain
  unfold trimExtent at h
  dsimp only at h
  split at h
  · exact hkeep hx.firstBlock (hu16 _) h
  · split at h
    · exact hkeep (hu32 _) (hu16 _) h
    · cases h

theorem keptEntries_cons (first last : ℕ) (x : Ext4Extent) (es : List Ext4Extent) :
    keptEntries first last (x :: es) =
      if last < x.firstBlock then x :: es
      else if sub32 (u32 (x.firstBlock + extentGetActualLen x)) 1 < first then
        x :: keptEntries first last es
      else (trimExtent x first last).2.toList ++ keptEntries first last es := by
  rw [keptEntries]
  cases (trimExtent x first last).2 <;> rfl

theorem length_keptEntries_le (first last : ℕ) (es : List Ext4Extent) :
    (keptEntries first last es).length ≤ es.length := by
  induction es with
  | nil => exact Nat.le_refl 0
  | cons x es ih =>
      rw [keptEntries_cons]
      split
      · exact Nat.le_refl _
      · split
        · exact Nat.succ_le_succ ih
        · have : (trimExtent x first last).2.toList.length ≤ 1 := by
            cases (trimExtent x first last).2 <;> simp
          rw [List.length_append, List.length_cons]
          omega

/-- Where the next entry starts behind the range, only the first one is touched. -/
theorem keptEntries_one {first last : ℕ} (hstart : x.firstBlock ≤ last)
    (hend : first ≤ sub32 (u32 (x.firstBlock + extentGetActualLen x)) 1)
    (hnext : ∀ y ∈ es.head?, last < y.firstBlock) :
    keptEntries first last (x :: es) = (trimExtent x first last).2.toList ++ es := by
  have hrest : keptEntries first last es = es := by
    cases es with
    | nil => rfl
    | cons y es => rw [keptEntries_cons, if_pos (hnext y rfl)]
  rw [keptEntries_cons, if_neg (Nat.not_lt.mpr hstart), if_neg (Nat.not_lt.mpr hend), hrest]

end Bytes

section Programs

variable {inodeRef} {s s₀ : St} {p : Place} {node leaf : ExtentPathNode} {d : Bytes}
variable {n first last : ℕ} {es done : List Ext4Extent}

/-! ## The loop of `remove_leaf` -/

/-- Freeing blocks touches no buffer, and a failure is reported as it is. -/
theorem wp_removeBlocks_or {Q : Unit → St → Prop} (x : Ext4Extent) (a b : ℕ)
    (hs : s₀.trace <:+ s.trace)
    (hQ : ∀ s', s'.bytes = s.bytes → s₀.trace <:+ s'.trace → Q () s') :
    wp ((removeBlocks inodeRef x a b).onError (releaseNode inodeRef leaf)) Q
      (fun err s' => FreeFailed inodeRef s₀ s' err) s := by
  unfold removeBlocks
  dsimp only
  rw [wp_onError, wp_ballocFreeBlocks]
  refine ⟨fun _ => hQ _ rfl (hs.trans (s.suffix_log _)), fun err herr => ?_⟩
  have hfailed : ∀ s', s.trace <:+ s'.trace → _ <:+ s'.trace → FreeFailed inodeRef s₀ s' err :=
    fun s' _ hlog => ⟨_, _, s.trace, hs, herr, hlog⟩
  unfold releaseNode
  rw [wp_ite]
  refine ⟨fun _ => hfailed _ (s.suffix_log _) List.suffix_rfl, fun _ => ?_⟩
  exact wp_blockSet_quiet fun s' h' =>
    hfailed s' ((s.suffix_log _).trans h'.suffix) h'.suffix

/-- Where the loop of `remove_leaf` arrives: at entry `i` with `done` in front of `write`. -/
structure Compacted (s₀ s : St) (p : Place) (n i write count : ℕ) (es : List Ext4Extent) :
    Prop where
  trace : s₀.trace <:+ s.trace
  count : count = n - (i - write)
  state : ∃ d done, s.bytes = s₀.bytes.set p d ∧ Compacting (s₀.bytes p) d n i write done ∧
    done ++ (extentLayout.records (s₀.bytes p) n).drop i = es

theorem wp_removeLeafLoop (hfits : inodeRef.Fits p n) (hn : n < 65536) :
    ∀ (m i write count : ℕ) (s : St) (d : Bytes) (done : List Ext4Extent), i + m = n →
      s.bytes = s₀.bytes.set p d → s₀.trace <:+ s.trace →
      Compacting (s₀.bytes p) d n i write done → count = n - (i - write) →
      wp (removeLeafLoop inodeRef p leaf first last m i write count)
        (fun r s' => Compacted s₀ s' p n r.2.1 r.1 r.2.2
          (done ++ keptEntries first last ((extentLayout.records (s₀.bytes p) n).drop i)))
        (fun err s' => FreeFailed inodeRef s₀ s' err) s := by
  intro m
  induction m with
  | zero =>
      intro i write count s d done hi hbytes htrace h hcount
      obtain rfl : i = n := hi
      have hdrop : (extentLayout.records (s₀.bytes p) i).drop i = [] :=
        List.drop_eq_nil_of_le (by simp)
      exact ⟨htrace, hcount, d, done, hbytes, h, by rw [hdrop]; rfl⟩
  | succ m ih =>
      intro i write count s d done hi hbytes htrace h hcount
      have hle := h.le
      have hlt : i < n := by omega
      have hdrop : (extentLayout.records (s₀.bytes p) n).drop i =
          extentLayout.get (s₀.bytes p) i :: (extentLayout.records (s₀.bytes p) n).drop (i + 1) := by
        rw [List.drop_eq_getElem_cons (by simpa using hlt), Layout.getElem_records]
      have hget : s.bytes.extent p i = extentLayout.get (s₀.bytes p) i := by
        unfold Disk.extent
        rw [hbytes, Disk.set_self]
        exact h.rest i (Nat.le_refl i)
      have hx : (extentLayout.get (s₀.bytes p) i).Fits := extentLoad_fits _ _
      unfold removeLeafLoop
      rw [wp_bind, wp_loadExtent, hget, hdrop, keptEntries_cons]
      refine ⟨hfits.mono (by omega), ?_⟩
      rw [wp_ite]
      refine ⟨fun hbehind => ?_, fun hreach => ?_⟩
      · -- the rest starts behind the range
        rw [if_pos hbehind]
        exact ⟨htrace, hcount, d, done, hbytes, h, by rw [hdrop]⟩
      rw [if_neg hreach, wp_ite]
      refine ⟨fun hbefore => ?_, fun hcut => ?_⟩
      · -- the entry ends in front of the range
        rw [if_pos hbefore, wp_bind, wp_storeExtent, hbytes, Disk.set_self]
        refine ⟨hfits.mono (by omega), ?_⟩
        have hih := ih (i + 1) (write + 1) count
          (s.setBytes p (extentStore d (entryOff write) (extentLayout.get (s₀.bytes p) i))) _ _
          (by omega) (by rw [St.bytes_setBytes, hbytes, Disk.set_set]) htrace (h.keep hlt hx)
          (by omega)
        rwa [List.append_assoc] at hih
      rw [if_neg hcut]
      dsimp only
      rw [wp_bind]
      refine wp_removeBlocks_or _ _ _ htrace fun s₁ hbytes₁ htrace₁ => ?_
      cases hkept : (trimExtent (extentLayout.get (s₀.bytes p) i) first last).2 with
      | none =>
          dsimp only
          rw [sub32_of_le (by omega) (by omega)]
          exact ih (i + 1) write (count - 1) s₁ d done (by omega) (hbytes₁.trans hbytes) htrace₁
            (h.drop hlt) (by omega)
      | some kept =>
          dsimp only
          rw [wp_bind, wp_storeExtent, hbytes₁, hbytes, Disk.set_self]
          refine ⟨hfits.mono (by omega), ?_⟩
          have hih := ih (i + 1) (write + 1) count
            (s₁.setBytes p (extentStore d (entryOff write) kept)) _ _ (by omega)
            (by rw [St.bytes_setBytes, hbytes₁, hbytes, Disk.set_set]) htrace₁
            (h.keep hlt (trimExtent_fits hx hkept)) (by omega)
          rwa [List.append_assoc] at hih

/-! ## Finishing -/

theorem Relists.slots_eq (h : Relists s₀ s p es) : s.bytes.slots p = es := by
  obtain ⟨d, hs, hlist⟩ := h
  unfold Disk.slots EspLwext4.slots
  rw [hs, Disk.set_self, hlist.header]
  exact hlist.entries

/-- Reading the first key back. -/
theorem key_eq_firstKey {D : Disk} (h : D.slots p = es) (hne : es ≠ []) :
    D.key p 0 = firstKey es := by
  obtain ⟨x, es, rfl⟩ := List.exists_cons_of_ne_nil hne
  exact Disk.key_zero (by rw [h]; rfl)

theorem firstKey_lt {D : Disk} (h : D.slots p = es) : firstKey es < 4294967296 := by
  cases es with
  | nil => exact Nat.zero_lt_succ _
  | cons e es => exact (Disk.slots_fits e (h ▸ List.mem_cons_self)).firstBlock

theorem Relists.edited {s' : St} {d' : Bytes} (h : Relists s₀ s p es)
    (hlen : es.length ≤ (s₀.bytes.header p).maxEntriesCount)
    (hbytes : s'.bytes = s₀.bytes.set p d')
    (hd : d' = s.bytes p ∨ p ≠ .root ∧ d' = withChecksum inodeRef (s.bytes p)) :
    Edited inodeRef extentLayout s₀ s' p es := by
  obtain ⟨d, hs, hlist⟩ := h
  rw [hs, Disk.set_self] at hd
  have hself : s'.bytes p = d' := by rw [hbytes, Disk.set_self]
  have hcount : (headerLoad d).entriesCount = es.length := by rw [hlist.header]; rfl
  have hmax : (headerLoad d).maxEntriesCount = (s₀.bytes.header p).maxEntriesCount := by
    rw [hlist.header]
    rfl
  have hslots : extentLayout.records d es.length = es := hlist.entries
  refine ⟨fun q hq => by rw [hbytes]; exact s₀.bytes.set_ne d' hq, ?_, ?_, fun i hi hchecksum => ?_⟩
  · unfold Disk.header
    rw [hself]
    rcases hd with rfl | ⟨-, rfl⟩
    · exact hlist.header
    · rw [headerLoad_withChecksum]
      exact hlist.header
  · rw [hself]
    rcases hd with rfl | ⟨-, rfl⟩
    · exact hslots
    · have hsame : slots (withChecksum inodeRef d) = slots d := slots_withChecksum (by omega)
      unfold slots at hsame
      rw [headerLoad_withChecksum, hcount] at hsame
      exact hsame.trans hslots
  · rw [hself]
    rcases hd with rfl | ⟨hroot, rfl⟩
    · exact hlist.behind i hi
    · have htail : tailOffset (headerLoad d) = tailOffset (s₀.bytes.header p) := by
        unfold tailOffset
        rw [hmax]
      unfold withChecksum
      split
      · rename_i hcsum
        rw [htail, writeLe32_of_outside, hlist.behind i hi]
        refine Or.inr (Nat.not_lt.mp fun hlt => hchecksum ⟨hroot, hcsum, hi, hlt⟩)
      · exact hlist.behind i hi

theorem wp_nodeBlockPut_bytes {Q : Unit → St → Prop} {E : Errno → St → Prop} {b : ℕ}
    (hQ : ∀ s', s'.bytes = s.bytes → Q () s') (hE : ∀ err s', s'.bytes = s.bytes → E err s') :
    wp (nodeBlockPut inodeRef b) Q E s := by
  unfold nodeBlockPut
  rw [wp_bind, wp_callIo, wp_bind, wp_callIo, wp_check]
  exact ⟨fun _ => hQ _ rfl, fun _ _ => hE _ _ rfl⟩

/-- The end of every edit: whatever marking the block dirty reports, the buffer is edited. -/
theorem wp_finishNode_edited (hok : HeaderOk inodeRef node.place (s₀.bytes.header node.place))
    (hlen : es.length ≤ (s₀.bytes.header node.place).maxEntriesCount)
    (h : Relists s₀ s node.place es) :
    wp (finishNode inodeRef node) (fun _ s' => Edited inodeRef extentLayout s₀ s' node.place es)
      (fun _ s' => Edited inodeRef extentLayout s₀ s' node.place es) s := by
  obtain ⟨d, hs, hlist⟩ := id h
  have hself : s.bytes node.place = d := by rw [hs, Disk.set_self]
  unfold finishNode
  rw [wp_ite]
  refine ⟨fun _ => h.edited hlen hs (Or.inl hself.symm), fun hb => ?_⟩
  have hplace : node.place = .block node.pblockOfNode := Place.of_ne_zero hb
  have hroot : node.place ≠ .root := by
    rw [hplace]
    exact fun h => by cases h
  have hheader : HeaderOk inodeRef node.place (headerLoad d) := by
    rw [hlist.header]
    exact hok.withCount hlen
  rw [hplace] at hheader hself
  have put (s₁ : St) (d' : Bytes) (hs₁ : s₁.bytes = s₀.bytes.set node.place d')
      (hd : d' = s.bytes node.place ∨
        node.place ≠ .root ∧ d' = withChecksum inodeRef (s.bytes node.place)) :
      wp (nodeBlockPut inodeRef node.pblockOfNode)
        (fun _ s' => Edited inodeRef extentLayout s₀ s' node.place es)
        (fun _ s' => Edited inodeRef extentLayout s₀ s' node.place es) s₁ :=
    wp_nodeBlockPut_bytes (fun s' hs' => h.edited hlen (hs'.trans hs₁) hd)
      fun _ s' hs' => h.edited hlen (hs'.trans hs₁) hd
  unfold finishBlock
  rw [wp_bind, wp_onError]
  refine wp_setExtentBlockChecksum (by rw [hself]; exact hheader.magic)
    (by rw [hself]; exact hheader.tail) ?_ fun _ => ?_
  · refine put _ _ ?_ (Or.inr ⟨hroot, rfl⟩)
    rw [St.bytes_setBytes, hplace, hs, hplace, Disk.set_set]
  · exact put s d hs (Or.inl (by rw [hplace]; exact hself.symm))

/-- The same edit, read as index entries. -/
theorem Edited.asIndex {s' : St} {xs : List Ext4ExtentIndex}
    (h : Edited inodeRef extentLayout s s' p es) (hxs : es.map (·.asIndex) = xs) :
    Edited inodeRef indexLayout s s' p xs := by
  subst hxs
  refine ⟨h.others, by rw [List.length_map]; exact h.header, ?_, h.behind⟩
  rw [List.length_map, records_asIndex, h.entries]

/-! ## Each edit -/

section Held

variable {l r : List Ext4Extent} {x y z : Ext4Extent} (h : Held inodeRef s node)

include h

theorem Held.records : extentLayout.records (s.bytes node.place) node.header.entriesCount =
    s.bytes.slots node.place := by
  rw [h.copy]
  rfl

theorem Held.count (hs : s.bytes.slots node.place = es) : node.header.entriesCount = es.length := by
  rw [← hs, h.copy, Disk.length_slots]

theorem Held.max_lt : node.header.maxEntriesCount < 65536 := h.ok.max_lt

theorem Held.fits (hn : n ≤ node.header.maxEntriesCount) : inodeRef.Fits node.place n :=
  inodeRef.fits_of_le (Nat.le_trans hn h.ok.max)

/-- Finishing an edit that left the entries `es`. -/
theorem Held.wp_finish (hlen : es.length ≤ node.header.maxEntriesCount) {s' : St}
    (hrel : Relists s s' node.place es) :
    wp (finishNode inodeRef node) (fun _ s' => Edited inodeRef extentLayout s s' node.place es)
      (fun _ s' => Edited inodeRef extentLayout s s' node.place es) s' := by
  have hok := h.ok
  rw [h.copy] at hok hlen
  exact wp_finishNode_edited hok hlen hrel

theorem wp_placeExtent_relists (hs : s.bytes.slots node.place = l ++ r) (hy : y.Fits)
    (hroom : node.header.entriesCount < node.header.maxEntriesCount) :
    wp (placeExtent inodeRef node l.length y) (fun _ s' => Relists s s' node.place (l ++ y :: r))
      (fun _ _ => False) s := by
  have hcount := h.count hs
  have hmax := h.max_lt
  have hrec := h.records
  rw [hcount] at hroom hrec
  have hfits := h.fits hroom
  have hle : l.length ≤ (l ++ r).length := by simp
  unfold placeExtent
  rw [wp_bind, hcount]
  refine wp_open hfits ?_
  rw [wp_bind, wp_storeExtent]
  refine ⟨hfits.mono (by omega), ?_⟩
  rw [wp_storeHeader, u16_of_lt (by omega)]
  simp only [St.setBytes_setBytes, St.bytes_setBytes, Disk.set_self]
  refine ⟨_, rfl, ?_⟩
  rw [h.copy] at hroom ⊢
  exact .insert (hrec.trans hs) hroom (extent_get_extentStore_self hy)
    (fun i hi => extent_get_extentStore_ne hi)
    fun i hi => extentStore_behind y (Nat.lt_of_le_of_lt hle hroom) hi

theorem wp_replaceByTwo_relists (hs : s.bytes.slots node.place = l ++ x :: r) (hy : y.Fits)
    (hz : z.Fits) (hpos : node.position = l.length)
    (hroom : node.header.entriesCount < node.header.maxEntriesCount) :
    wp (replaceByTwo inodeRef node y z)
      (fun _ s' => Relists s s' node.place (l ++ y :: z :: r) ∧ s'.trace = s.trace)
      (fun _ _ => False) s := by
  have hcount := h.count hs
  have hmax := h.max_lt
  have hrec := h.records
  rw [hcount] at hroom hrec
  have hfits := h.fits hroom
  have hlt : l.length < (l ++ x :: r).length := by simp
  unfold replaceByTwo
  dsimp only
  rw [wp_bind, hcount, hpos, Nat.sub_sub]
  refine wp_open hfits ?_
  rw [wp_bind, wp_storeExtent]
  refine ⟨hfits.mono (by omega), ?_⟩
  rw [wp_bind, wp_storeExtent]
  refine ⟨hfits.mono (by omega), ?_⟩
  rw [wp_storeHeader, u16_of_lt (by omega)]
  simp only [St.setBytes_setBytes, St.bytes_setBytes, Disk.set_self]
  refine ⟨⟨_, rfl, ?_⟩, rfl⟩
  rw [h.copy] at hroom ⊢
  exact .replaceTwo (hrec.trans hs) hroom hy hz

/-- Deleting the entry at the position; the key it returns is read back afterwards. -/
theorem wp_dropIndex_relists (hs : s.bytes.slots node.place = l ++ x :: r)
    (hpos : node.position = l.length) :
    wp (dropIndex inodeRef node)
      (fun v s' => Relists s s' node.place (l ++ r) ∧ s'.trace = s.trace ∧ v = firstKey (l ++ r))
      (fun _ _ => False) s := by
  have hcount := h.count hs
  have hmax := h.max_lt
  have hle := h.ok.count
  have hrec := h.records
  rw [hcount] at hle hrec
  have hfits := h.fits hle
  have hlen : (l ++ x :: r).length = l.length + 1 + r.length := by
    simp [Nat.add_comm, Nat.add_left_comm]
  have h₁ : sub32 (l ++ x :: r).length 1 = (l ++ x :: r).length - 1 :=
    sub32_of_le (by omega) (by omega)
  have h₂ : sub32 (sub32 (l ++ x :: r).length l.length) 1 = (l ++ x :: r).length - (l.length + 1) := by
    rw [sub32_of_le (show l.length ≤ (l ++ x :: r).length by omega) (by omega),
      sub32_of_le (by omega) (by omega)]
    omega
  -- counting and reading back, whatever stands in the slots that do not count
  have count (d : Bytes) (hlo : ∀ i, i + 1 < (l ++ x :: r).length → extentLayout.get d i =
        extentLayout.get (closed (s.bytes node.place) l.length (l ++ x :: r).length) i)
      (hbehind : ∀ i, tailOffset (s.bytes.header node.place) ≤ i → d i = s.bytes node.place i) :
      wp (storeHeader inodeRef node.place
          { node.header with entriesCount := u16 ((l ++ x :: r).length - 1) } >>= fun _ =>
        if 0 < u16 ((l ++ x :: r).length - 1) then loadKey inodeRef node.place 0 else pure 0)
        (fun v s' => Relists s s' node.place (l ++ r) ∧ s'.trace = s.trace ∧
          v = firstKey (l ++ r)) (fun _ _ => False) (s.setBytes node.place d) := by
    have hlist : Relists s (s.setBytes node.place (headerStore d
        ((s.bytes.header node.place).withCount ((l ++ x :: r).length - 1)))) node.place (l ++ r) := by
      refine ⟨_, rfl, ?_⟩
      rw [h.copy] at hle
      exact .delete (hrec.trans hs) hle hlo hbehind
    have hleft : (l ++ r).length = (l ++ x :: r).length - 1 := by rw [hlen, List.length_append]; omega
    rw [wp_bind, wp_storeHeader, u16_of_lt (by omega), h.copy]
    simp only [St.setBytes_setBytes, St.bytes_setBytes, Disk.set_self]
    rw [wp_ite, ← hleft]
    rw [← hleft] at hlist
    refine ⟨fun hpos => ?_, fun h0 => ⟨hlist, rfl, ?_⟩⟩
    · exact (wp_loadKey (hfits.mono (by omega))).mpr ⟨hlist, rfl,
        key_eq_firstKey hlist.slots_eq (List.ne_nil_of_length_pos hpos)⟩
    · rw [List.eq_nil_of_length_eq_zero (Nat.eq_zero_of_not_pos h0)]
      rfl
  have hcopy := h.copy
  unfold dropIndex
  dsimp only
  rw [wp_bind, hcount, hpos, h₁, h₂, wp_whenever]
  constructor
  · intro hne
    rw [wp_bind, wp_moveEntries]
    refine ⟨hfits.mono (by omega), hfits.mono (by omega), wp_clear.mpr ⟨?_, ?_⟩⟩
    · exact entryOff_add_mul_le_iff (n := 1) |>.mpr (hfits.mono (by omega))
    · simp only [St.setBytes_setBytes, St.bytes_setBytes, Disk.set_self]
      have hzero (d : Bytes) (i : ℕ) (hi : i + 1 < (l ++ x :: r).length) :
          extentLayout.get (d.zero (entryOff ((l ++ x :: r).length - 1)) 12) i =
            extentLayout.get d i :=
        extentLayout.get_zero_outside (m := 1) (Or.inl (by omega))
      refine count _ (fun i hi => hzero _ i hi) fun i hi => ?_
      rw [tailOffset_eq, ← hcopy] at hi
      have hlast : entryOff ((l ++ x :: r).length - 1) + 12 ≤ i :=
        Nat.le_trans (extentLayout.off_add_width_le (by omega)) hi
      exact (zero_of_outside (Or.inr hlast)).trans (closed_behind hle (by omega) hi)
  · intro hlast
    have hstill := count (s.bytes node.place) (fun i hi => ?_) fun _ _ => rfl
    · rwa [St.setBytes_self] at hstill
    · unfold closed
      rw [show (l ++ x :: r).length - (l.length + 1) = 0 by omega]
      exact (extentLayout.get_copy_outside (m := 0) (Or.inl (by omega))).symm

/-- Rebuilding the entries from the position on. -/
theorem wp_rewriteLeaf_relists (hs : s.bytes.slots node.place = es)
    (hpos : node.position ≤ es.length) :
    let kept := es.take node.position ++ keptEntries first last (es.drop node.position)
    wp (rewriteLeaf inodeRef node first last)
      (fun r s' => Relists s s' node.place kept ∧ r = (kept.length, firstKey kept))
      (fun err s' => FreeFailed inodeRef s s' err) s := by
  have hcount := h.count hs
  have hmax := h.max_lt
  have hle := h.ok.count
  have hrec := h.records
  rw [hcount] at hle hrec
  rw [hs] at hrec
  have hfits := h.fits hle
  have htake : extentLayout.records (s.bytes node.place) node.position = es.take node.position := by
    have := extentLayout.records_take (hrec.trans (es.take_append_drop node.position).symm)
    rwa [List.length_take, Nat.min_eq_left hpos] at this
  unfold rewriteLeaf
  dsimp only
  rw [wp_bind, hcount]
  refine wp_mono (wp_removeLeafLoop hfits (by omega) _ _ _ _ s (s.bytes node.place) _ (by omega)
    (by rw [← St.bytes_setBytes, St.setBytes_self]) List.suffix_rfl (.start _ hpos) (by omega)) ?_
    fun _ _ hfailed => hfailed
  rintro ⟨write, i, count⟩ s₁ ⟨-, hnew, d, done, hbytes, hcomp, hdone⟩
  rw [hrec] at hdone
  rw [htake] at hdone
  dsimp only at hnew hcomp hdone ⊢
  have hbound := hcomp.bound
  have hwle := hcomp.le
  have hlen : (done ++ es.drop i).length = count := by
    rw [List.length_append, List.length_drop, hcomp.written]
    omega
  rw [← hdone]
  -- counting the entries once they stand one behind the other
  have finish (s₂ : St) (d₂ : Bytes) (hs₂ : s₂.bytes = s.bytes.set node.place d₂)
      (hrec₂ : extentLayout.records d₂ (done ++ es.drop i).length = done ++ es.drop i)
      (hbehind : ∀ j, tailOffset (s.bytes.header node.place) ≤ j → d₂ j = s.bytes node.place j) :
      wp (storeHeader inodeRef node.place { node.header with entriesCount := u16 count } >>= fun _ =>
        if 0 < count then loadKey inodeRef node.place 0 >>= fun firstAfter =>
          pure (count, firstAfter) else pure (count, 0))
        (fun r s' => Relists s s' node.place (done ++ es.drop i) ∧
          r = ((done ++ es.drop i).length, firstKey (done ++ es.drop i)))
        (fun err s' => FreeFailed inodeRef s s' err) s₂ := by
    have hlist : Relists s (s₂.setBytes node.place (headerStore d₂
        ((s.bytes.header node.place).withCount count))) node.place (done ++ es.drop i) := by
      refine ⟨_, by rw [St.bytes_setBytes, hs₂, Disk.set_set], ?_⟩
      have := Relisted.of_records hrec₂ (by omega) hbehind
      rwa [hlen] at this
    rw [wp_bind, wp_storeHeader, u16_of_lt (by omega), h.copy, hs₂, Disk.set_self, wp_ite]
    refine ⟨fun hpos => ?_, fun h0 => ⟨hlist, ?_⟩⟩
    · rw [wp_bind, wp_loadKey (hfits.mono (by omega))]
      exact ⟨hlist, Prod.ext hlen.symm (key_eq_firstKey hlist.slots_eq (List.ne_nil_of_length_pos (by omega)))⟩
    · have hnil : done ++ es.drop i = [] := List.eq_nil_of_length_eq_zero (by omega)
      exact Prod.ext hlen.symm (by rw [hnil]; rfl)
  have hbehind (j : ℕ) (hj : tailOffset (s.bytes.header node.place) ≤ j) :
      entryOff es.length ≤ j := by
    rw [tailOffset_eq, ← h.copy] at hj
    exact Nat.le_trans (entryOff_mono hle) hj
  rw [wp_bind, wp_whenever]
  constructor
  · intro hmove
    rw [wp_moveEntries]
    refine ⟨hfits.mono (by omega), hfits.mono (by omega), ?_⟩
    refine finish _ _ (by rw [St.bytes_setBytes, hbytes, Disk.set_set]) ?_ fun j hj => ?_
    · rw [Disk.set_self]
      have := hcomp.close
      rwa [hrec] at this
    · rw [Disk.set_self, copy_behind _ (by omega) (hbehind j hj)]
      exact hcomp.outside j (Or.inr (hbehind j hj))
  · intro hstill
    refine finish s₁ d hbytes ?_ fun j hj => hcomp.outside j (Or.inr (hbehind j hj))
    have := hcomp.close_still hstill
    rwa [hrec] at this

omit h in
/-- Checking a node again changes nothing. -/
theorem wp_recheckIfBlock_still (node : ExtentPathNode) {Q : Unit → St → Prop}
    {E : Errno → St → Prop} (hQ : ∀ s', s'.bytes = s.bytes → Q () s')
    (hE : ∀ err s', s'.bytes = s.bytes → E err s') :
    wp (whenever (node.pblockOfNode ≠ 0)
      ((recheckNode inodeRef node).onError (releaseNode inodeRef node))) Q E s := by
  have release (err : Errno) (s₁ : St) (h₁ : s₁.bytes = s.bytes) :
      wp (releaseNode inodeRef node) (fun _ => E err) (fun _ => E err) s₁ := by
    unfold releaseNode
    rw [wp_ite]
    exact ⟨fun _ => hE err s₁ h₁,
      fun _ => wp_blockSet_quiet fun s' h' => hE err s' (h'.bytes.trans h₁)⟩
  rw [wp_whenever]
  refine ⟨fun _ => ?_, fun _ => hQ s rfl⟩
  rw [wp_onError]
  unfold recheckNode
  rw [wp_bind, wp_loadHeader, wp_bind]
  refine (wp_validateHeader (p := .block node.pblockOfNode)).mpr
    ⟨fun hok => ?_, fun _ => release _ s rfl⟩
  rw [wp_bind]
  refine wp_validateEntries_reads hok.fits (fun _ s₁ h₁ => ?_) fun _ => release _ s rfl
  rw [wp_failIf]
  exact ⟨fun _ => release _ s₁ h₁.bytes, fun _ => hQ s₁ h₁.bytes⟩

/-- Inserting a separator: the entry goes in front of the first larger key, or the node is
left as it was. -/
theorem wp_insertIndexEntry_edited {path : ExtentSearchPath} {level firstBlock : ℕ} (pblock : ℕ)
    (hnode : path.path[level]? = some node) (hkey : firstBlock < 4294967296) :
    let xs := s.bytes.indexes node.place node.header.entriesCount
    let inserted := xs.insertIdx (separatorPos xs firstBlock)
      (indexStorePblock ⟨firstBlock, 0, 0, 0⟩ pblock)
    wp (insertIndexEntry inodeRef path level firstBlock pblock)
      (fun _ s' => Edited inodeRef indexLayout s s' node.place inserted)
      (fun _ s' => s'.bytes = s.bytes ∨ Edited inodeRef indexLayout s s' node.place inserted) s := by
  intro xs inserted
  have hrec := h.records
  have hcount := h.count rfl
  have hmax := h.max_lt
  have hxs : xs = (s.bytes.slots node.place).map (·.asIndex) := by
    rw [← hrec]
    exact records_asIndex _ _
  have hlen : xs.length = node.header.entriesCount := by rw [hxs, List.length_map, hcount]
  unfold insertIndexEntry
  rw [wp_bind, wp_node]
  refine ⟨node, hnode, (wp_ite _ _ _).mpr ⟨fun _ => Or.inl rfl, fun hroom => ?_⟩⟩
  rw [not_or, Nat.not_le] at hroom
  have hfits := h.fits hroom.2
  dsimp only
  rw [wp_bind]
  refine wp_getForWrite .insertIndexEntry (fun s₀ h₀ => ?_) fun _ _ h₁ _ => Or.inl h₁.bytes
  rw [wp_bind]
  refine wp_recheckIfBlock_still node (fun s₁ h₁ => ?_) fun _ _ h₂ => Or.inl (h₂.trans h₀.bytes)
  have hbytes := h₁.trans h₀.bytes
  rw [wp_bind, entryInsertPos]
  refine wp_entryInsertPosLoop_stop (fun pos hpos hle hgt => ?_) _ 0 (Nat.zero_add _)
    (hfits.mono (by omega)) (by omega)
  rw [hbytes] at hle hgt
  have hat : separatorPos xs firstBlock = pos := separatorPos_eq hpos hle hgt
  rw [wp_bind, wp_keyBefore (hfits.mono (by omega)), wp_ite]
  refine ⟨fun _ => ?_, fun _ => ?_⟩
  · -- the key is there already
    rw [wp_bind, wp_attempt]
    unfold releaseNode
    rw [wp_ite]
    exact ⟨fun _ => Or.inl hbytes, fun _ => wp_blockSet_quiet fun s' h' => Or.inl (h'.bytes.trans hbytes)⟩
  obtain ⟨l, r, hslots, hl⟩ : ∃ l r, s.bytes.slots node.place = l ++ r ∧ l.length = pos :=
    ⟨_, _, (List.take_append_drop pos _).symm, by rw [List.length_take, ← hcount]; omega⟩
  rw [hslots] at hcount hrec hxs
  rw [hcount] at hroom hfits hrec
  have hroom := hroom.2
  obtain rfl := hl
  have hx := indexStorePblock_fits hkey pblock
  have hins : (l ++ (indexStorePblock ⟨firstBlock, 0, 0, 0⟩ pblock).asExtent :: r).map
      (·.asIndex) = inserted := by
    rw [List.map_append, List.map_cons, Ext4ExtentIndex.asIndex_asExtent hx, ← insertIdx_append]
    show _ = xs.insertIdx (separatorPos xs firstBlock) _
    rw [hat, hxs, List.map_append, List.length_map]
  have hle : l.length ≤ (l ++ r).length := by simp
  rw [wp_bind, hcount]
  refine wp_open hfits ?_
  rw [wp_bind, wp_storeIndex]
  refine ⟨hfits.mono (by omega), ?_⟩
  rw [wp_bind, wp_storeHeader, u16_of_lt (by omega)]
  simp only [St.setBytes_setBytes, St.bytes_setBytes, Disk.set_self]
  refine wp_mono (h.wp_finish ?_ ⟨_, by rw [St.bytes_setBytes, hbytes], ?_⟩)
    (fun _ _ h => h.asIndex hins) fun _ _ h => Or.inr (h.asIndex hins)
  · simp only [List.length_append, List.length_cons] at hroom ⊢
    omega
  · rw [h.copy] at hroom ⊢
    exact .insert hrec hroom (extent_get_indexStore_self hx)
      (fun i hi => extent_get_indexStore_ne hi)
      fun i hi => indexStore_behind _ (Nat.lt_of_le_of_lt hle hroom) hi

end Held

end Programs

/-- What the moves and stores of each function do to the node `node` with the entries `es`, or
the index entries `xs`. -/
structure EditsLists (s : St) (node : ExtentPathNode) (es : List Ext4Extent)
    (xs : List Ext4ExtentIndex) : Prop where
  insertNewExtent : ∀ pos (new : Ext4Extent), new.Fits → es ≠ [] →
    es.length < node.header.maxEntriesCount → pos ≤ es.length →
    wp (do placeExtent inodeRef node pos new; finishNode inodeRef node)
      (fun _ s' => Edited inodeRef extentLayout s s' node.place (es.insertIdx pos new))
      (fun _ s' => Edited inodeRef extentLayout s s' node.place (es.insertIdx pos new)) s
  insertIndexEntry : ∀ path level (firstBlock : UInt32) pblock, path.path[level]? = some node →
    let inserted := xs.insertIdx (separatorPos xs firstBlock.toNat)
      (indexStorePblock ⟨firstBlock.toNat, 0, 0, 0⟩ pblock)
    wp (insertIndexEntry inodeRef path level firstBlock.toNat pblock)
      (fun _ s' => Edited inodeRef indexLayout s s' node.place inserted)
      (fun _ s' => s'.bytes = s.bytes ∨ Edited inodeRef indexLayout s s' node.place inserted) s
  removeMiddleOfExtent : ∀ pre suffix : Ext4Extent, pre.Fits → suffix.Fits →
    es.length < node.header.maxEntriesCount → node.position < es.length →
    let replaced := (es.set node.position pre).insertIdx (node.position + 1) suffix
    wp (do replaceByTwo inodeRef node pre suffix; finishNode inodeRef node)
      (fun _ s' => Edited inodeRef extentLayout s s' node.place replaced)
      (fun _ s' => Edited inodeRef extentLayout s s' node.place replaced) s
  removeLeaf : ∀ first last, node.position ≤ es.length →
    let kept := es.take node.position ++ keptEntries first last (es.drop node.position)
    wp (do let _ ← rewriteLeaf inodeRef node first last; finishNode inodeRef node)
      (fun _ s' => Edited inodeRef extentLayout s s' node.place kept)
      (fun err s' => FreeFailed inodeRef s s' err ∨
        Edited inodeRef extentLayout s s' node.place kept) s
  removeLeaf_one : ∀ first last x, es[node.position]? = some x → x.firstBlock ≤ last →
    first ≤ sub32 (u32 (x.firstBlock + extentGetActualLen x)) 1 →
    (∀ y, es[node.position + 1]? = some y → last < y.firstBlock) →
    es.take node.position ++ keptEntries first last (es.drop node.position) =
      match (trimExtent x first last).2 with
      | none => es.eraseIdx node.position
      | some y => es.set node.position y
  removeIndex : node.position < xs.length →
    wp (do let _ ← dropIndex inodeRef node; finishNode inodeRef node)
      (fun _ s' => Edited inodeRef indexLayout s s' node.place (xs.eraseIdx node.position))
      (fun _ s' => Edited inodeRef indexLayout s s' node.place (xs.eraseIdx node.position)) s

/-- **The byte edits of a node are list edits.** For a node buffer with a valid header, of the
root or of a block of any size, with any entries and at any position: the moves and stores
leave a header and entries that decode to the edited list, the other header fields as they
were, and behind the declared entries nothing changed but the checksum. -/
theorem node_edits_are_list_edits (inodeRef : InodeRef) (s : St) (node : ExtentPathNode)
    (h : Held inodeRef s node) :
    EditsLists inodeRef s node (s.bytes.slots node.place)
      (s.bytes.indexes node.place node.header.entriesCount) := by
  have hcount := h.count rfl
  have hle := h.ok.count
  have hxs : s.bytes.indexes node.place node.header.entriesCount =
      (s.bytes.slots node.place).map (·.asIndex) := by
    rw [← h.records]
    exact records_asIndex _ _
  generalize hes : s.bytes.slots node.place = es at *
  -- the entries around a position
  have around {pos : ℕ} (hpos : pos < es.length) :
      ∃ l x r, es = l ++ x :: r ∧ pos = l.length := by
    refine ⟨es.take pos, es[pos], es.drop (pos + 1), ?_, by rw [List.length_take]; omega⟩
    rw [List.getElem_cons_drop, List.take_append_drop]
  constructor
  · intro pos new hnew _ hroom hpos
    obtain ⟨l, r, hlr, rfl⟩ : ∃ l r, es = l ++ r ∧ l.length = pos :=
      ⟨_, _, (List.take_append_drop pos _).symm, by rw [List.length_take]; omega⟩
    rw [hlr, insertIdx_append, wp_bind]
    refine wp_mono (wp_placeExtent_relists h (hes.trans hlr) hnew (by omega)) (fun _ s' h' => ?_)
      fun _ _ h => h.elim
    refine h.wp_finish ?_ h'
    rw [hlr] at hroom
    simp only [List.length_append, List.length_cons] at hroom ⊢
    omega
  · intro path level firstBlock pblock hnode
    exact wp_insertIndexEntry_edited h pblock hnode firstBlock.toNat_lt
  · intro pre suffix hpre hsuffix hroom hpos
    obtain ⟨l, x, r, hlr, hl⟩ := around hpos
    have hreplaced : (es.set node.position pre).insertIdx (node.position + 1) suffix =
        l ++ pre :: suffix :: r := by
      have hset : (l ++ x :: r).set l.length pre = (l ++ [pre]) ++ r := by simp
      have hlen : l.length + 1 = (l ++ [pre]).length := by simp
      rw [hlr, hl, hset, hlen, insertIdx_append]
      simp
    dsimp only
    rw [hreplaced, wp_bind]
    refine wp_mono (wp_replaceByTwo_relists h (hes.trans hlr) hpre hsuffix hl (by omega))
      (fun _ s' h' => ?_) fun _ _ h => h.elim
    refine h.wp_finish ?_ h'.1
    rw [hlr] at hroom
    simp only [List.length_append, List.length_cons] at hroom ⊢
    omega
  · intro first last hpos
    dsimp only
    rw [wp_bind]
    refine wp_mono (wp_rewriteLeaf_relists h hes hpos) (fun _ s' h' => ?_) fun _ _ h => Or.inl h
    refine wp_mono (h.wp_finish ?_ h'.1) (fun _ _ h => h) fun _ _ h => Or.inr h
    have := length_keptEntries_le first last (es.drop node.position)
    rw [List.length_drop] at this
    rw [List.length_append, List.length_take]
    omega
  · intro first last x hx hstart hend hnext
    obtain ⟨hpos, rfl⟩ := List.getElem?_eq_some_iff.mp hx
    obtain ⟨l, x, r, rfl, hl⟩ := around hpos
    simp only [hl] at hx hstart hend hnext ⊢
    rw [List.take_left, List.drop_left]
    simp only [List.getElem_append_right (Nat.le_refl _), Nat.sub_self, List.getElem_cons_zero]
      at hstart hend ⊢
    rw [keptEntries_one hstart hend fun y hy => hnext y ?_]
    · cases (trimExtent x first last).2 with
      | none => simp [List.eraseIdx_append_of_length_le (Nat.le_refl l.length)]
      | some y => simp
    · rw [List.getElem?_append_right (Nat.le_succ _), Nat.succ_sub (Nat.le_refl _), Nat.sub_self,
        List.getElem?_cons_succ]
      rwa [← List.head?_eq_getElem?]
  · intro hpos
    rw [hxs, List.length_map] at hpos
    obtain ⟨l, x, r, hlr, hl⟩ := around hpos
    have herase : (l ++ r).map (·.asIndex) =
        (s.bytes.indexes node.place node.header.entriesCount).eraseIdx node.position := by
      rw [hxs, hlr, hl, List.map_append, List.map_append, List.map_cons]
      have := List.eraseIdx_append_of_length_le (l := l.map (·.asIndex)) (k := l.length)
        (by simp) (x.asIndex :: r.map (·.asIndex))
      rw [this]
      simp
    rw [wp_bind]
    refine wp_mono (wp_dropIndex_relists h (hes.trans hlr) hl) (fun _ s' h' => ?_)
      fun _ _ h => h.elim
    refine wp_mono (h.wp_finish ?_ h'.1) (fun _ _ h => h.asIndex herase) fun _ _ h =>
      h.asIndex herase
    rw [hcount, hlr] at hle
    simp only [List.length_append, List.length_cons] at hle ⊢
    omega

/-- A root with three extents. -/
def threeExtentDisk : Disk
  | .root => leafBytes 4 [⟨0, 1, 0, 200⟩, ⟨10, 1, 0, 210⟩, ⟨20, 1, 0, 220⟩]
  | .block _ => fun _ => 0

/-- Its path node, at the second extent. -/
def threeExtentNode : ExtentPathNode :=
  ⟨⟨ext4ExtentMagic, 3, 4, 0, 0⟩, zeroIndex, ⟨10, 1, 0, 210⟩, false, true, 1, 210, 0⟩

/-- The edits of a root with three extents at its second one. -/
theorem node_edits_are_list_edits_second :
    EditsLists (sampleVolume fullLwext4) ⟨threeExtentDisk, false, []⟩ threeExtentNode
      [⟨0, 1, 0, 200⟩, ⟨10, 1, 0, 210⟩, ⟨20, 1, 0, 220⟩]
      [⟨0, 1, 200, 0⟩, ⟨10, 1, 210, 0⟩, ⟨20, 1, 220, 0⟩] := by
  have hslots : threeExtentDisk.slots .root =
      [⟨0, 1, 0, 200⟩, ⟨10, 1, 0, 210⟩, ⟨20, 1, 0, 220⟩] := by decide +kernel
  have hindexes : threeExtentDisk.indexes .root 3 =
      [⟨0, 1, 200, 0⟩, ⟨10, 1, 210, 0⟩, ⟨20, 1, 220, 0⟩] := by decide +kernel
  rw [← hslots, ← hindexes]
  exact node_edits_are_list_edits (sampleVolume fullLwext4) ⟨threeExtentDisk, false, []⟩
    threeExtentNode ⟨by decide +kernel, by decide⟩

end EspLwext4
