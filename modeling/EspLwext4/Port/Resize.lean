import EspLwext4.Port.Offsets
import EspLwext4.Port.Fstat

/-!
# Resizing

lwext4 cuts files but cannot make them longer, so growing a file is a loop that writes
the zeros of `grow_buffer` at its end. Whatever the writes return, a resized file is the
old content cut or followed by zeros, and a positioned write lays its bytes over the
old content, followed by zeros up to the offset.
-/

namespace EspLwext4.Port

open Prog Runs

section Adapter

variable {σ D : Type} {env : Env σ D} {data : σ → ℕ → List UInt8}

/-- `ext4_ftruncate` cuts the file of a handle. Opening a file for reading and writing
opens the one that the path names, and like closing it changes no content. -/
structure ResizeLaws (env : Env σ D) (data : σ → ℕ → List UInt8)
    (named : σ → CStr → Option ℕ) : Prop where
  ftruncate : ∀ n (st : FileSt σ), n ≤ sizeOf data st →
    wp (env.lwext4.ftruncate n)
      (fun _ st' => data st'.fs st.file.inode = (data st.fs st.file.inode).take n ∧
        ∀ j, j ≠ st.file.inode → data st'.fs j = data st.fs j) (fun _ _ => True) st
  fopen2 : ∀ p s, wp (env.lwext4.fopen2 p .rdwr)
    (fun _ st' => data st'.fs = data s ∧ named s p = some st'.file.inode)
    (fun _ st' => data st'.fs = data s) ⟨s, .zero⟩
  fclose : ∀ st, wp env.lwext4.fclose (fun _ st' => data st'.fs = data st.fs)
    (fun _ st' => data st'.fs = data st.fs) st
  malloc : ∀ n s, data (env.idf.malloc n s).2 = data s ∧ named (env.idf.malloc n s).2 = named s
  lock : ∀ s, named (env.idf.semaphoreTake s).2 = named s

/-! ## Contents -/

/-- The file `i` has size `n`: the old content is cut there, or followed by zeros. No
other file changed. -/
def Resized (data : σ → ℕ → List UInt8) (i n : ℕ) (fs fs' : σ) : Prop :=
  data fs' i = (data fs i).take n ++ List.replicate (n - (data fs i).length) 0 ∧
    ∀ j, j ≠ i → data fs' j = data fs j

/-- The file `i` is the old content followed by zeros, up to a size between the old one
and `n`. -/
def PartlyGrown (data : σ → ℕ → List UInt8) (i n : ℕ) (fs fs' : σ) : Prop :=
  ∃ m, (data fs i).length ≤ m ∧ m ≤ n ∧ Resized data i m fs fs'

theorem Resized.length {i n : ℕ} {fs fs' : σ} (h : Resized data i n fs fs') :
    (data fs' i).length = n := by
  rw [h.1, List.length_append, List.length_take, List.length_replicate]
  omega

/-- Only the contents at the start matter. -/
theorem Resized.since {i n : ℕ} {fs₀ fs fs' : σ} (h : Resized data i n fs fs')
    (hd : data fs = data fs₀) : Resized data i n fs₀ fs' := by
  unfold Resized at h ⊢
  rw [hd] at h
  exact h

theorem Resized.until_same {i n : ℕ} {fs fs' fs'' : σ} (h : Resized data i n fs fs')
    (hd : data fs'' = data fs') : Resized data i n fs fs'' := by
  unfold Resized
  rw [hd]
  exact h

theorem PartlyGrown.since {i n : ℕ} {fs₀ fs fs' : σ} (h : PartlyGrown data i n fs fs')
    (hd : data fs = data fs₀) : PartlyGrown data i n fs₀ fs' := by
  obtain ⟨m, hle, hmax, hres⟩ := h
  exact ⟨m, hd ▸ hle, hmax, hres.since hd⟩

theorem Resized.of_cut {i n : ℕ} {fs fs' : σ} (hn : n ≤ (data fs i).length)
    (h : data fs' i = (data fs i).take n) (ho : ∀ j, j ≠ i → data fs' j = data fs j) :
    Resized data i n fs fs' := by
  refine ⟨?_, ho⟩
  rw [h, Nat.sub_eq_zero_of_le hn, List.replicate_zero, List.append_nil]

/-- Below both sizes nothing changed. -/
theorem Resized.old {i n : ℕ} {fs fs' : σ} (h : Resized data i n fs fs') :
    (data fs i).take n <+: data fs' i := ⟨_, h.1.symm⟩

/-- Zeros at the end. -/
theorem Resized.of_extends {i k : ℕ} {fs fs' : σ}
    (h : Extends data i (List.replicate k 0) fs fs') :
    Resized data i ((data fs i).length + k) fs fs' := by
  refine ⟨?_, h.2⟩
  rw [List.take_of_length_le (Nat.le_add_right _ _), Nat.add_sub_cancel_left]
  exact h.1

theorem Resized.of_same {i : ℕ} {fs fs' : σ} (h : data fs' = data fs) :
    Resized data i (data fs i).length fs fs' := by
  have hext : Extends data i (List.replicate 0 0) fs fs' := Extends.of_same h
  exact Resized.of_extends hext

theorem PartlyGrown.of_same {i n : ℕ} {fs fs' : σ} (h : data fs' = data fs)
    (hn : (data fs i).length ≤ n) : PartlyGrown data i n fs fs' :=
  ⟨_, Nat.le_refl _, hn, Resized.of_same h⟩

/-- Appending twice. -/
theorem Extends.trans {i : ℕ} {new new' : List UInt8} {fs fs' fs'' : σ}
    (h : Extends data i new fs fs') (h' : Extends data i new' fs' fs'') :
    Extends data i (new ++ new') fs fs'' := by
  refine ⟨?_, fun j hj => (h'.2 j hj).trans (h.2 j hj)⟩
  rw [h'.1, h.1, List.append_assoc]

/-- Laying bytes over a file that was first filled with zeros up to their offset. -/
theorem overlay_filled {old new : List UInt8} {pos : ℕ} (h : old.length ≤ pos) :
    overlay (old ++ List.replicate (pos - old.length) 0) pos new = overlay old pos new := by
  have hlen : (old ++ List.replicate (pos - old.length) (0 : UInt8)).length = pos := by
    rw [List.length_append, List.length_replicate]
    omega
  unfold overlay
  rw [hlen, Nat.sub_self, List.replicate_zero, List.append_nil]
  rw [List.drop_of_length_le (Nat.le_trans (Nat.le_of_eq hlen) (Nat.le_add_right _ _)),
    List.drop_of_length_le (Nat.le_trans h (Nat.le_add_right _ _))]

/-! ## The growth loop -/

/-- The buffer holds zeros. -/
def GrowBuffer.Zeros (grow : GrowBuffer) : Prop := grow.bytes = List.replicate grow.size 0

/-- A loop that has nothing left to write. -/
theorem growLoop_done {grow : GrowBuffer} {newSize cur : ℕ} (h : newSize ≤ cur) (rounds : ℕ) :
    growLoop env grow newSize rounds cur = pure () := by
  cases rounds with
  | zero => rfl
  | succ rounds => exact if_neg (Nat.not_lt_of_le h)

theorem growLoop_enough {grow : GrowBuffer} {newSize rounds rounds' cur : ℕ}
    (h : newSize - cur ≤ rounds) (h' : newSize - cur ≤ rounds') :
    growLoop env grow newSize rounds cur = growLoop env grow newSize rounds' cur := by
  induction rounds generalizing rounds' cur with
  | zero =>
    have hle : newSize ≤ cur := Nat.le_of_sub_eq_zero (Nat.le_zero.mp h)
    exact (growLoop_done hle 0).trans (growLoop_done hle rounds').symm
  | succ rounds ih =>
    by_cases hlt : cur < newSize
    · obtain ⟨rounds', rfl⟩ : ∃ r, rounds' = r + 1 := ⟨rounds' - 1, by omega⟩
      have hround (r : ℕ) : growLoop env grow newSize (r + 1) cur = (do
          let written ← env.lwext4.fwrite (grow.bytes.take (min grow.size (newSize - cur)))
          failIf (written = 0) .eio
          growLoop env grow newSize r (cur + written)) := if_pos hlt
      rw [hround, hround]
      funext st
      cases hw : env.lwext4.fwrite (grow.bytes.take (min grow.size (newSize - cur))) st with
      | err e st' => exact (bind_of_err hw).trans (bind_of_err hw).symm
      | fault x => exact x.elim
      | ok written st' =>
        refine (bind_of_ok hw).trans (Eq.trans ?_ (bind_of_ok hw).symm)
        by_cases hzero : written = 0
        · exact (bind_of_err (failIf_of hzero)).trans (bind_of_err (failIf_of hzero)).symm
        · -- the round wrote something, so fewer bytes are missing than rounds are left
          refine (bind_of_ok (failIf_of_not hzero)).trans (Eq.trans ?_
            (bind_of_ok (failIf_of_not hzero)).symm)
          exact congrFun (ih (by omega) (by omega)) st'
    · have hle := Nat.le_of_not_lt hlt
      exact (growLoop_done hle _).trans (growLoop_done hle _).symm

section File

variable {st : FileSt σ}

theorem take_zeros {grow : GrowBuffer} (hz : grow.Zeros) {k n : ℕ} (hk : k ≤ grow.size)
    (hn : n ≤ (grow.bytes.take k).length) :
    n ≤ k ∧ (grow.bytes.take k).take n = List.replicate n 0 := by
  unfold GrowBuffer.Zeros at hz
  rw [hz, List.take_replicate, List.length_replicate] at hn
  rw [hz, List.take_replicate, List.take_replicate]
  exact ⟨by omega, congrArg (List.replicate · 0) (by omega)⟩

/-- A write of the buffer at the end appends zeros and leaves the file at its end. -/
theorem FileLaws.wp_fwrite_zeros (hL : FileLaws env data) {grow : GrowBuffer} (hz : grow.Zeros)
    {k : ℕ} (hk : k ≤ grow.size) (hend : AtEnd data st) :
    wp (env.lwext4.fwrite (grow.bytes.take k))
      (fun n st' => n ≤ k ∧ AtEnd data st' ∧ SameInode st st' ∧
        Extends data st.file.inode (List.replicate n 0) st.fs st'.fs)
      (fun _ st' => SameInode st st' ∧ ∃ n ≤ k,
        Extends data st.file.inode (List.replicate n 0) st.fs st'.fs) st := by
  refine wp_mono (hL.fwrite _ st) ?_ ?_
  · rintro n st' ⟨hn, hw, hpos⟩
    obtain ⟨hle, hzeros⟩ := take_zeros hz hk hn
    have hext := hw.extends hend.fpos
    rw [hzeros] at hext
    refine ⟨hle, ⟨?_, ?_⟩, hw.inode, hext⟩
    · rw [hpos, hend.fpos]
      unfold sizeOf
      rw [hw.inode, hext.1, List.length_append, List.length_replicate]
    · rw [hw.fsize]
      unfold sizeOf
      rw [hw.inode]
  · rintro e st' ⟨n, hn, hw⟩
    obtain ⟨hle, hzeros⟩ := take_zeros hz hk hn
    have hext := hw.extends hend.fpos
    rw [hzeros] at hext
    exact ⟨hw.inode, n, hle, hext⟩

/-- What the growth of a file of size `cur` leaves, wherever it stops: `k` zeros behind the
content. -/
def Zeroed (data : σ → ℕ → List UInt8) (st st' : FileSt σ) (k : ℕ) : Prop :=
  SameInode st st' ∧ Extends data st.file.inode (List.replicate k 0) st.fs st'.fs

theorem Zeroed.trans {st' st'' : FileSt σ} {k k' : ℕ} (h : Zeroed data st st' k)
    (h' : Zeroed data st' st'' k') : Zeroed data st st'' (k + k') := by
  obtain ⟨hi, hext⟩ := h
  obtain ⟨hi', hext'⟩ := h'
  refine ⟨hi'.trans hi, ?_⟩
  rw [show st'.file.inode = st.file.inode from hi] at hext'
  rw [List.replicate_add]
  exact hext.trans hext'

theorem Zeroed.none (data : σ → ℕ → List UInt8) (st : FileSt σ) : Zeroed data st st 0 :=
  ⟨rfl, Extends.of_same rfl⟩

/-- **The growth loop** appends the zeros that are missing; when it fails, some of them. -/
theorem FileLaws.wp_growLoop_zeros (hL : FileLaws env data) {grow : GrowBuffer} (hz : grow.Zeros)
    {newSize rounds cur : ℕ} (hend : AtEnd data st) (hle : cur ≤ newSize)
    (hrounds : newSize ≤ cur + rounds) :
    wp (growLoop env grow newSize rounds cur)
      (fun _ st' => Zeroed data st st' (newSize - cur))
      (fun _ st' => ∃ k ≤ newSize - cur, Zeroed data st st' k) st := by
  induction rounds generalizing st cur with
  | zero =>
    rw [show newSize - cur = 0 by omega]
    exact Zeroed.none data st
  | succ rounds ih =>
    unfold growLoop
    rw [wp_ite]
    constructor
    · intro hlt
      simp only []
      rw [wp_bind]
      refine wp_mono (hL.wp_fwrite_zeros hz (Nat.min_le_left _ _) hend) ?_ ?_
      · rintro written st₁ ⟨hwritten, hend₁, hw⟩
        have hroom : written ≤ newSize - cur := Nat.le_trans hwritten (Nat.min_le_right _ _)
        rw [wp_bind, wp_failIf]
        refine ⟨fun _ => ⟨written, hroom, hw⟩, fun hne => ?_⟩
        refine wp_mono (ih hend₁ (by omega) (by omega)) ?_ ?_
        · intro _ st₂ h₂
          rw [show newSize - cur = written + (newSize - (cur + written)) by omega]
          exact Zeroed.trans hw h₂
        · rintro _ st₂ ⟨k, hk, h₂⟩
          exact ⟨written + k, by omega, Zeroed.trans hw h₂⟩
      · rintro e st₁ ⟨hinode, n, hn, hext⟩
        exact ⟨n, Nat.le_trans hn (Nat.min_le_right _ _), hinode, hext⟩
    · intro hge
      rw [show newSize - cur = 0 by omega]
      exact Zeroed.none data st

/-! ## Resizing -/

theorem Zeroed.resized {st' : FileSt σ} {k n : ℕ} (h : Zeroed data st st' k)
    (hn : sizeOf data st + k = n) : Resized data st.file.inode n st.fs st'.fs :=
  hn ▸ Resized.of_extends h.2

/-- Seeking changes no file, whatever it returns. -/
theorem FileLaws.wp_seek_same (hL : FileLaws env data) (o : ℤ) {Q : Except Errno Unit → FileSt σ → Prop}
    {E : Errno → FileSt σ → Prop}
    (h : ∀ r st', st'.fs = st.fs → st'.file.inode = st.file.inode → Q r st') :
    wp (env.lwext4.fseek o .seekSet).attempt Q E st := by
  rw [wp_attempt]
  unfold wp
  by_cases ho : 0 ≤ o ∧ o ≤ st.file.fsize
  · rw [hL.seek o st ho.1 ho.2]
    exact h _ _ rfl rfl
  · rw [hL.seek_refused o st ho]
    exact h _ _ rfl rfl

variable {named : σ → CStr → Option ℕ}

/-- **Resizing one file.** -/
theorem ResizeLaws.wp_resizeFile (hR : ResizeLaws env data named) (hL : FileLaws env data)
    {grow : GrowBuffer} (hz : grow.Zeros) (path : CStr) {newSize : ℕ} (hmax : newSize ≤ int64Max) :
    wp (resizeFileLocked env grow path newSize)
      (fun _ st' => Resized data st.file.inode newSize st.fs st'.fs ∧
        (sizeOf data st < newSize → SameInode st st'))
      (fun _ st' => sizeOf data st < newSize →
        PartlyGrown data st.file.inode newSize st.fs st'.fs) st := by
  unfold resizeFileLocked
  rw [wp_bind, wp_failIf]
  refine ⟨fun _ hlt => PartlyGrown.of_same rfl (Nat.le_of_lt hlt), fun _ => ?_⟩
  rw [wp_bind]
  refine wp_mono (hL.wp_currentFileSize path) ?_
    fun _ _ h hlt => PartlyGrown.of_same h.1 (Nat.le_of_lt hlt)
  rintro size ⟨fs, file⟩ ⟨hdata, hfile, hsize⟩
  obtain rfl : file = st.file := hfile
  obtain rfl : size = sizeOf data st := hsize
  -- the lookup left every file as it was
  have hfrom {n : ℕ} {fs' : σ} (h : Resized data st.file.inode n fs fs') :
      Resized data st.file.inode n st.fs fs' := h.since hdata
  rw [wp_ite]
  constructor
  · intro hle
    have hle' : newSize ≤ sizeOf data (⟨fs, st.file⟩ : FileSt σ) :=
      Nat.le_trans hle (Nat.le_of_eq (sizeOf_congr hdata rfl).symm)
    refine wp_mono (hR.ftruncate newSize ⟨fs, st.file⟩ hle') ?_ ?_
    · rintro _ st₂ ⟨hcut, hothers⟩
      exact ⟨hfrom (Resized.of_cut hle' hcut hothers), fun hlt => absurd hle (Nat.not_le_of_lt hlt)⟩
    · exact fun _ _ _ hlt => absurd hle (Nat.not_le_of_lt hlt)
  · intro hlt
    have hlt' : sizeOf data st < newSize := Nat.lt_of_not_le hlt
    unfold ftell
    simp only [wp_bind, wp_getState, wp_pure]
    refine (wp_update _).mpr ?_
    have hsize₁ : sizeOf data
        (⟨fs, ⟨st.file.inode, sizeOf data st, sizeOf data st⟩⟩ : FileSt σ) = sizeOf data st :=
      sizeOf_congr hdata rfl
    have hend : AtEnd data (⟨fs, ⟨st.file.inode, sizeOf data st, sizeOf data st⟩⟩ : FileSt σ) :=
      ⟨hsize₁.symm, hsize₁.symm⟩
    have hrounds : newSize ≤ sizeOf data st + (newSize - sizeOf data st) := by omega
    have hgrow := hL.wp_growLoop_zeros hz hend (Nat.le_of_lt hlt') hrounds
    rw [wp_attempt, wp_bind, int64_of_le (by omega)]
    refine hL.wp_seek (fun _ => wp_mono hgrow ?_ ?_) fun hcontra => absurd hcontra (Nat.lt_irrefl _)
    · intro _ st₂ h₂
      refine hL.wp_seek_same _ fun r st₃ hfs hinode => ?_
      have hres : Resized data st.file.inode newSize st.fs st₃.fs := by
        rw [hfs]
        exact hfrom (h₂.resized (by rw [hsize₁]; omega))
      refine wp_firstError _ r (fun _ => ⟨hres, fun _ => hinode.trans h₂.1⟩) fun _ _ => ?_
      exact ⟨newSize, Nat.le_of_lt hlt', Nat.le_refl _, hres⟩
    · rintro e st₂ ⟨k, hk, h₂⟩
      refine hL.wp_seek_same _ fun r st₃ hfs hinode => ?_
      have hpart : PartlyGrown data st.file.inode newSize st.fs st₃.fs := by
        rw [hfs]
        refine ⟨sizeOf data st + k, Nat.le_add_right _ _, by omega, hfrom (h₂.resized ?_)⟩
        rw [hsize₁]
      unfold firstError
      simp only [wp_bind, wp_ofExcept, wp_pure]
      exact ⟨fun _ ha => (by cases ha), fun _ _ _ => hpart⟩

/-! ## Positioned writes -/

/-- `new` lies at `pos` in the file `i`, over the old content and the zeros up to `pos`. -/
def Overlaid (data : σ → ℕ → List UInt8) (i pos : ℕ) (new : List UInt8) (fs fs' : σ) : Prop :=
  data fs' i = overlay (data fs i) pos new ∧ ∀ j, j ≠ i → data fs' j = data fs j

/-- Filled up to `pos` first and written at `pos` then. -/
theorem Resized.overlaid {i pos : ℕ} {new : List UInt8} {fs fs' fs'' : σ}
    (h : Resized data i pos fs fs') (hle : (data fs i).length ≤ pos)
    (h' : Overlaid data i pos new fs' fs'') : Overlaid data i pos new fs fs'' := by
  refine ⟨?_, fun j hj => (h'.2 j hj).trans (h.2 j hj)⟩
  rw [h'.1, h.1, List.take_of_length_le hle, overlay_filled hle]

/-- The seek and the write. -/
theorem FileLaws.wp_seekWrite (hL : FileLaws env data) (st : FileSt σ) {offset : ℕ}
    (hoff : offset ≤ sizeOf data st) (bytes : List UInt8) :
    wp (do
        env.lwext4.fseek offset .seekSet
        transfer env (.write bytes))
      (fun r st' => r.count ≤ bytes.length ∧
        Overlaid data st.file.inode offset (bytes.take r.count) st.fs st'.fs)
      (fun _ _ => True) st := by
  rw [wp_bind]
  refine hL.wp_seek (fun _ => ?_) fun _ => trivial
  unfold transfer
  rw [wp_bind]
  refine wp_mono (hL.fwrite _ _) ?_ fun _ _ _ => trivial
  rintro n st₁ ⟨hn, hw, -⟩
  have hlimit := Nat.le_trans hn (List.length_take_le _ _)
  have htake : (bytes.take (env.idf.ioSizeLimit bytes.length)).take n = bytes.take n := by
    rw [List.take_take, Nat.min_eq_left hlimit]
  have hcontent := hw.content hoff
  rw [htake] at hcontent
  exact ⟨Nat.le_trans hn (List.length_take_le' ..), hcontent, hw.others⟩

theorem ResizeLaws.wp_writeAt (hR : ResizeLaws env data named) (hL : FileLaws env data)
    {grow : GrowBuffer} (hz : grow.Zeros) (path : CStr) {bytes : List UInt8} {offset : ℕ}
    (hmax : offset ≤ int64Max) :
    wp (transferAt env grow path (.write bytes) offset)
      (fun r st' => r.count ≤ bytes.length ∧
        Overlaid data st.file.inode offset (bytes.take r.count) st.fs st'.fs)
      (fun _ _ => True) st := by
  unfold transferAt
  rw [wp_bind]
  refine wp_mono (hL.wp_currentFileSize path) ?_ fun _ _ _ => trivial
  rintro size ⟨fs, file⟩ ⟨hdata, hfile, hsize⟩
  obtain rfl : file = st.file := hfile
  obtain rfl : size = sizeOf data st := hsize
  have hsize₁ : sizeOf data (⟨fs, st.file⟩ : FileSt σ) = sizeOf data st := sizeOf_congr hdata rfl
  have hfrom {pos : ℕ} {new : List UInt8} {fs' : σ}
      (h : Overlaid data st.file.inode pos new fs fs') :
      Overlaid data st.file.inode pos new st.fs fs' := by
    unfold Overlaid at h ⊢
    rw [show data fs = data st.fs from hdata] at h
    exact h
  rw [wp_bind, wp_whenever]
  constructor
  · -- beyond the end the gap is filled first
    rintro ⟨-, hlt⟩
    have hlt₁ : sizeOf data (⟨fs, st.file⟩ : FileSt σ) < offset := hsize₁.symm ▸ hlt
    refine wp_mono (hR.wp_resizeFile hL hz path hmax) ?_ fun _ _ _ => trivial
    rintro _ st₂ ⟨hres, hinode⟩
    replace hinode : st₂.file.inode = st.file.inode := hinode hlt₁
    rw [wp_ite]
    refine ⟨fun hc => (by cases hc.1), fun _ => ?_⟩
    have hoff : offset ≤ sizeOf data st₂ := by
      unfold sizeOf
      rw [hinode]
      exact Nat.le_of_eq hres.length.symm
    refine wp_mono (hL.wp_seekWrite st₂ hoff bytes) ?_ fun _ _ _ => trivial
    rintro r st₃ ⟨hcount, hover⟩
    rw [hinode] at hover
    exact ⟨hcount, hfrom (hres.overlaid (Nat.le_of_lt hlt₁) hover)⟩
  · intro hnot
    rw [wp_ite]
    refine ⟨fun hc => (by cases hc.1), fun _ => ?_⟩
    have hoff : offset ≤ sizeOf data (⟨fs, st.file⟩ : FileSt σ) :=
      hsize₁.symm ▸ Nat.le_of_not_lt fun hlt => hnot ⟨rfl, hlt⟩
    refine wp_mono (hL.wp_seekWrite _ hoff bytes) ?_ fun _ _ _ => trivial
    rintro r st₃ ⟨hcount, hover⟩
    exact ⟨hcount, hfrom hover⟩

/-- **A positioned write.** -/
theorem ResizeLaws.wp_positionedWrite (hR : ResizeLaws env data named) (hL : FileLaws env data)
    {grow : GrowBuffer} (hz : grow.Zeros) (path : CStr) {bytes : List UInt8} (hne : bytes ≠ [])
    {offset : ℕ} (hmax : offset ≤ int64Max) :
    wp (positionedIoLocked env grow path (.write bytes) offset)
      (fun r st' => r.count ≤ bytes.length ∧
        Overlaid data st.file.inode offset (bytes.take r.count) st.fs st'.fs)
      (fun _ _ => True) st := by
  unfold positionedIoLocked ftell
  simp only [wp_bind, wp_getState, wp_pure, wp_failIf]
  refine ⟨fun _ => trivial, fun _ => ?_⟩
  rw [wp_attempt, wp_ite]
  refine ⟨fun hzero => absurd (List.length_eq_zero_iff.mp hzero) hne, fun _ => ?_⟩
  refine wp_mono (hR.wp_writeAt hL hz path hmax) ?_ ?_
  · rintro r st₁ ⟨hcount, hover⟩
    refine hL.wp_seek_same _ fun restored st₂ hfs _ => ?_
    unfold firstError
    simp only [wp_bind, wp_ofExcept, wp_pure]
    refine ⟨?_, fun _ _ => trivial⟩
    rintro r' ⟨⟩
    exact ⟨fun _ _ => ⟨hcount, hfs ▸ hover⟩, fun _ _ => trivial⟩
  · intro e st₁ _
    refine hL.wp_seek_same _ fun restored st₂ _ _ => ?_
    unfold firstError
    simp only [wp_bind, wp_ofExcept, wp_pure]
    exact ⟨fun _ ha => (by cases ha), fun _ _ => trivial⟩

end File

/-! ## Calls -/

section Calls

variable {named : σ → CStr → Option ℕ} {st : MountSt σ D}

/-- What the three calls do to files, from the state `st` on. -/
structure ResizesExactly (env : Env σ D) (data : σ → ℕ → List UInt8)
    (named : σ → CStr → Option ℕ) (st : MountSt σ D) : Prop where
  ftruncate : ∀ fd (length : ℤ), length ≤ int64Max →
    wp (vfsLwext4Ftruncate env fd length)
      (fun _ st' => Resized data (inodeAt st fd) length.toNat st.fs st'.fs)
      (fun _ st' => (data st.fs (inodeAt st fd)).length < length →
        PartlyGrown data (inodeAt st fd) length.toNat st.fs st'.fs) st
  truncate : ∀ path (length : ℤ), length ≤ int64Max →
    wp (vfsLwext4Truncate env path length)
      (fun _ st' => ∃ i, named st.fs (st.ctx.mountPoint ++ path.tail) = some i ∧
        Resized data i length.toNat st.fs st'.fs)
      (fun _ st' => ∀ i, named st.fs (st.ctx.mountPoint ++ path.tail) = some i →
        (data st.fs i).length < length → PartlyGrown data i length.toNat st.fs st'.fs) st
  pwrite : ∀ fd bytes (offset : ℤ), bytes ≠ [] → offset ≤ int64Max →
    wp (vfsLwext4Pwrite env fd bytes offset)
      (fun r st' => r.count ≤ bytes.length ∧
        Overlaid data (inodeAt st fd) offset.toNat (bytes.take r.count) st.fs st'.fs)
      (fun _ _ => True) st
  growth_ends : ∀ grow newSize rounds cur, newSize - cur ≤ rounds →
    growLoop env grow newSize rounds cur = growLoop env grow newSize (newSize - cur) cur

theorem ResizeLaws.wp_ftruncate (hR : ResizeLaws env data named) (hL : FileLaws env data)
    (hz : st.ctx.growBuffer.Zeros) (fd : ℤ) {length : ℤ} (hmax : length ≤ int64Max) :
    wp (vfsLwext4Ftruncate env fd length)
      (fun _ st' => Resized data (inodeAt st fd) length.toNat st.fs st'.fs)
      (fun _ st' => (data st.fs (inodeAt st fd)).length < length →
        PartlyGrown data (inodeAt st fd) length.toNat st.fs st'.fs) st := by
  have hsame {fs : σ} (hfs : data fs = data st.fs)
      (hlt : (data st.fs (inodeAt st fd)).length < length) :
      PartlyGrown data (inodeAt st fd) length.toNat st.fs fs :=
    PartlyGrown.of_same hfs (by omega)
  unfold vfsLwext4Ftruncate refuseReadOnly
  simp only [wp_bind, wp_getState, wp_failIf]
  refine ⟨fun _ => hsame rfl, fun _ => ⟨fun _ => hsame rfl, fun _ => ?_⟩⟩
  refine hL.wp_onOpenFile (fun _ _ => hsame) fun fs hfs _ _ => ?_
  have hmax' : length.toNat ≤ int64Max := by omega
  refine wp_mono (hR.wp_resizeFile hL hz _ hmax') (fun _ fst h => h.1.since hfs) ?_
  intro e fst h hlt
  refine PartlyGrown.since (h ?_) hfs
  exact show (data fs (inodeAt st fd)).length < length.toNat by rw [hfs]; omega

/-- The work of `truncate`. -/
theorem ResizeLaws.wp_truncateLocked (hR : ResizeLaws env data named) (hL : FileLaws env data)
    {grow : GrowBuffer} (hz : grow.Zeros) {length : ℕ} (hmax : length ≤ int64Max)
    (fullPath : CStr) (s : σ) :
    wp (truncateLocked env grow length fullPath)
      (fun _ s' => ∃ i, named s fullPath = some i ∧ Resized data i length s s')
      (fun _ s' => ∀ i, named s fullPath = some i → (data s i).length < length →
        PartlyGrown data i length s s') s := by
  unfold truncateLocked
  rw [wp_within, wp_bind]
  refine wp_mono (hR.fopen2 fullPath s) ?_
    fun _ _ h i _ hlt => PartlyGrown.of_same h (Nat.le_of_lt hlt)
  rintro _ st₁ ⟨hdata, hnamed⟩
  rw [wp_bind, wp_attempt]
  -- closing the file changes nothing, whatever it reports
  have hclose {r : Except Errno Unit} {st₂ : FileSt σ} {Q : Unit → FileSt σ → Prop}
      {E : Errno → FileSt σ → Prop}
      (h : ∀ st₃ : FileSt σ, data st₃.fs = data st₂.fs →
        wp (ofExcept r : Call (FileSt σ) Unit) Q E st₃) :
      wp (do
        let _ ← env.lwext4.fclose.attempt
        ofExcept r) Q E st₂ := by
    rw [wp_bind, wp_attempt]
    exact wp_mono (hR.fclose st₂) (fun _ st₃ h₃ => h st₃ h₃) fun _ st₃ h₃ => h st₃ h₃
  refine wp_mono (hR.wp_resizeFile hL hz fullPath hmax) ?_ ?_
  · rintro _ st₂ ⟨hres, -⟩
    refine hclose fun st₃ h₃ => ⟨st₁.file.inode, hnamed, ?_⟩
    exact (hres.since hdata).until_same h₃
  · intro e st₂ h
    refine hclose fun st₃ h₃ i hi hlt => ?_
    obtain rfl : st₁.file.inode = i := Option.some.inj (hnamed.symm.trans hi)
    have hpart := h (show (data st₁.fs _).length < length by rw [hdata]; exact hlt)
    obtain ⟨m, hle, hmax, hres⟩ := hpart.since hdata
    exact ⟨m, hle, hmax, hres.until_same h₃⟩

theorem ResizeLaws.wp_truncate (hR : ResizeLaws env data named) (hL : FileLaws env data)
    (hz : st.ctx.growBuffer.Zeros) (path : CStr) {length : ℤ} (hmax : length ≤ int64Max) :
    wp (vfsLwext4Truncate env path length)
      (fun _ st' => ∃ i, named st.fs (st.ctx.mountPoint ++ path.tail) = some i ∧
        Resized data i length.toNat st.fs st'.fs)
      (fun _ st' => ∀ i, named st.fs (st.ctx.mountPoint ++ path.tail) = some i →
        (data st.fs i).length < length → PartlyGrown data i length.toNat st.fs st'.fs) st := by
  have hsame {fs : σ} (hfs : data fs = data st.fs) (i : ℕ)
      (_ : named st.fs (st.ctx.mountPoint ++ path.tail) = some i)
      (hlt : (data st.fs i).length < length) : PartlyGrown data i length.toNat st.fs fs :=
    PartlyGrown.of_same hfs (by omega)
  have hmalloc (n : ℕ) := hR.malloc n st.fs
  unfold vfsLwext4Truncate refuseReadOnly onPath fullPathOf makePath locked onFs
  simp only [wp_bind, wp_getState, wp_failIf, wp_zoom, wp_pure]
  refine ⟨fun _ => hsame rfl, fun _ => ⟨fun _ => hsame rfl, fun _ => ⟨fun _ => hsame rfl,
    fun _ => ⟨fun _ => hsame rfl, fun _ => ?_⟩⟩⟩⟩
  refine wp_allocate ?_ (hsame (hmalloc _).1)
  refine wp_takeLock ?_ (hsame ((hL.lock _).trans (hmalloc _).1))
  have hdata {n : ℕ} : data (env.idf.semaphoreTake (env.idf.malloc n st.fs).2).2 = data st.fs :=
    (hL.lock _).trans (hmalloc n).1
  have hnamed {n : ℕ} : named (env.idf.semaphoreTake (env.idf.malloc n st.fs).2).2 = named st.fs :=
    (hR.lock _).trans (hmalloc n).2
  refine wp_mono (hR.wp_truncateLocked hL hz (by omega) _ _) ?_ ?_
  · rintro _ fs ⟨i, hi, hres⟩
    exact ⟨i, (congrFun hnamed _).symm.trans hi, hres.since hdata⟩
  · intro e fs h i hi hlt
    have hlt' : (data st.fs i).length < length.toNat := by omega
    refine PartlyGrown.since (h i ((congrFun hnamed _).trans hi) ?_) hdata
    exact Nat.lt_of_le_of_lt (Nat.le_of_eq (congrArg List.length (congrFun hdata i))) hlt'

theorem ResizeLaws.wp_pwrite (hR : ResizeLaws env data named) (hL : FileLaws env data)
    (hz : st.ctx.growBuffer.Zeros) (fd : ℤ) {bytes : List UInt8} (hne : bytes ≠ []) {offset : ℤ}
    (hmax : offset ≤ int64Max) :
    wp (vfsLwext4Pwrite env fd bytes offset)
      (fun r st' => r.count ≤ bytes.length ∧
        Overlaid data (inodeAt st fd) offset.toNat (bytes.take r.count) st.fs st'.fs)
      (fun _ _ => True) st := by
  unfold vfsLwext4Pwrite positionedIo refuseReadOnly
  simp only [wp_bind, wp_failIf, wp_whenever, wp_getState]
  refine ⟨fun _ => trivial, fun _ => ⟨fun _ => ⟨fun _ => trivial, fun _ => ?_⟩,
    fun hn => absurd rfl hn⟩⟩
  refine hL.wp_onOpenFile (fun _ _ _ => trivial) fun fs hfs _ _ => ?_
  have hmax' : offset.toNat ≤ int64Max := by omega
  refine wp_mono (hR.wp_positionedWrite hL hz _ hne hmax') ?_ fun _ _ _ => trivial
  rintro r fst ⟨hcount, hover⟩
  refine ⟨hcount, ?_⟩
  unfold Overlaid at hover ⊢
  rw [hfs] at hover
  exact hover

/-- The buffer of a context is set up with zeros, and no operation changes it. -/
theorem zeros_reached (fs : σ) (conf : Conf) (mountPoint : CStr) (ops : List MountOp) :
    (reached env fs conf mountPoint ops).ctx.growBuffer.Zeros := by
  refine run_keeps (C := fun _ _ => True) (I := fun st : MountSt σ D => st.ctx.growBuffer.Zeros)
    (fun st op h _ => ?_) (along_of_forall fun _ _ => trivial) ?_
  · rw [show (op.exec env st).ctx.growBuffer = st.ctx.growBuffer from (sameFixed_exec op).growBuffer]
    exact h
  · unfold Ctx.new GrowBuffer.Zeros
    split_ifs
    · rfl
    · rfl

end Calls

/-- **Resizing is exact**, in every state that operations on a new context reach and
whatever the writes of the library return: a file that `ftruncate` or `truncate` resized is
the old content cut or followed by zeros, one that they failed to grow is the old content
followed by zeros up to some size in between, a positioned write lies over the old content
and the zeros up to its offset, and the growth loop ends. -/
theorem resizes_exactly (env : Env σ D) (data : σ → ℕ → List UInt8) (named : σ → CStr → Option ℕ)
    (hL : FileLaws env data) (hR : ResizeLaws env data named) (fs : σ) (conf : Conf)
    (mountPoint : CStr) (ops : List MountOp) :
    ResizesExactly env data named (reached env fs conf mountPoint ops) where
  ftruncate fd _ hmax := hR.wp_ftruncate hL (zeros_reached fs conf mountPoint ops) fd hmax
  truncate path _ hmax := hR.wp_truncate hL (zeros_reached fs conf mountPoint ops) path hmax
  pwrite fd _ _ hne hmax :=
    hR.wp_pwrite hL (zeros_reached fs conf mountPoint ops) fd hne hmax
  growth_ends _ _ _ _ h := growLoop_enough h (Nat.le_refl _)

end Adapter

/-! ## Resizing on the library in memory -/

namespace Ram

theorem resizeLaws : ResizeLaws env data lookup where
  ftruncate n st hn := ⟨if_pos rfl, fun j hj => if_neg hj⟩
  fopen2 p s := by
    show wp (fopen2 p .rdwr) _ _ _
    unfold wp fopen2
    simp only
    cases hp : s.lookup p with
    | none => exact rfl
    | some i =>
      by_cases hdir : i ∈ s.dirs
      · simp only [if_pos hdir]
      · simp only [if_neg hdir]
        exact ⟨rfl, trivial⟩
  fclose _ := rfl
  malloc _ _ := ⟨rfl, rfl⟩
  lock _ := rfl

/-- Growing and writing behind the end of a file of ten bytes. -/
theorem resizes_ten :
    ResizesExactly env data lookup (reached env blank conf [slash]
      [.open_ pathA rdwrCreate, .open_ pathA .rdwr, .write 0 [0, 1, 2, 3, 4, 5, 6, 7, 8, 9]]) ∧
      data (run (MountOp.exec env) twoHandles [.ftruncate 1 4, .pwrite 1 [9] 6, .truncate pathA 9]).fs
        12 = [0, 1, 2, 3, 0, 0, 9, 0, 0] :=
  ⟨resizes_exactly env data lookup fileLaws resizeLaws blank conf [slash] _, by decide⟩

end Ram

end EspLwext4.Port
