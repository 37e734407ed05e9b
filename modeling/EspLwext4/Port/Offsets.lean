import EspLwext4.Port.Append

/-!
# The offset of a positioned call

`pread`, `pwrite` and a growing `ftruncate` move the offset of the handle, do
their work and seek back. The seek back is checked against the size that the work
has just refreshed: an offset the file still reaches comes back, and one that
another handle has cut off is lost.
-/

namespace EspLwext4.Port

open Prog Runs

section Adapter

variable {σ D : Type} {env : Env σ D} {data : σ → ℕ → List UInt8}

/-! ## Growing a file -/

section File

variable {st : FileSt σ}

/-- The size of the inode behind a file. -/
def sizeOf (data : σ → ℕ → List UInt8) (st : FileSt σ) : ℕ := (data st.fs st.file.inode).length

/-- The file stands at its end and knows its size. -/
structure AtEnd (data : σ → ℕ → List UInt8) (st : FileSt σ) : Prop where
  fpos : st.file.fpos = sizeOf data st
  fsize : st.file.fsize = sizeOf data st

/-- Writing where the file stands never shortens it. -/
theorem Wrote.size {st' : FileSt σ} {new : List UInt8} (h : Wrote data st st' new)
    (hpos : st.file.fpos ≤ sizeOf data st) :
    sizeOf data st' = max (sizeOf data st) (st.file.fpos + new.length) := by
  unfold sizeOf at hpos ⊢
  rw [h.inode, h.content hpos, length_overlay hpos]

/-- The growth loop keeps the file at its end; a failing write may leave it elsewhere,
but never shortens it. -/
theorem FileLaws.wp_growLoop (hL : FileLaws env data) {grow : GrowBuffer} {newSize : ℕ}
    {rounds cur : ℕ} (hend : AtEnd data st) (hcur : sizeOf data st = cur)
    (hrounds : newSize ≤ cur + rounds) :
    wp (growLoop env grow newSize rounds cur)
      (fun _ st' => AtEnd data st' ∧ st'.file.inode = st.file.inode ∧
        newSize ≤ sizeOf data st' ∧ cur ≤ sizeOf data st')
      (fun _ st' => st'.file.inode = st.file.inode ∧ cur ≤ sizeOf data st' ∧
        st'.file.fsize = sizeOf data st') st := by
  induction rounds generalizing st cur with
  | zero => exact ⟨hend, rfl, hcur ▸ hrounds, Nat.le_of_eq hcur.symm⟩
  | succ rounds ih =>
    unfold growLoop
    rw [wp_ite]
    constructor
    · intro hlt
      simp only []
      rw [wp_bind]
      refine wp_mono (hL.fwrite _ st) ?_ ?_
      · rintro written st₁ ⟨hle, hw, hpos⟩
        have htake := List.length_take_of_le hle
        have hsize : sizeOf data st₁ = cur + written := by
          rw [hw.size (Nat.le_of_eq hend.fpos), hend.fpos, hcur, htake]
          exact Nat.max_eq_right (Nat.le_add_right _ _)
        have hfsize : st₁.file.fsize = sizeOf data st₁ := by
          rw [hw.fsize]
          unfold sizeOf
          rw [hw.inode]
        have hend₁ : AtEnd data st₁ := by
          refine ⟨?_, hfsize⟩
          rw [hpos, hend.fpos, hcur, hsize]
        rw [wp_bind, wp_failIf]
        constructor
        · intro _
          exact ⟨hw.inode, hsize ▸ Nat.le_add_right _ _, hfsize⟩
        · intro hne
          refine wp_mono (ih hend₁ hsize (by omega)) ?_ ?_
          · rintro _ st₂ ⟨h₁, h₂, h₃, h₄⟩
            exact ⟨h₁, h₂.trans hw.inode, h₃, Nat.le_trans (Nat.le_add_right _ _) h₄⟩
          · rintro _ st₂ ⟨h₁, h₂, h₃⟩
            exact ⟨h₁.trans hw.inode, Nat.le_trans (Nat.le_add_right _ _) h₂, h₃⟩
      · rintro e st₁ ⟨n, -, hw⟩
        refine ⟨hw.inode, ?_, ?_⟩
        · rw [hw.size (Nat.le_of_eq hend.fpos), hcur]
          exact Nat.le_max_left _ _
        · rw [hw.fsize]
          unfold sizeOf
          rw [hw.inode]
    · intro hge
      exact ⟨hend, rfl, hcur ▸ Nat.le_of_not_lt hge, Nat.le_of_eq hcur.symm⟩

/-! ## Seeking back -/

/-- The file can seek back to `o`: it stands there, or its cached size reaches `o`. -/
def CanReturn (o : ℕ) (st : FileSt σ) : Prop := st.file.fpos = o ∨ o ≤ st.file.fsize

/-- A seek back that is possible, or not needed, leaves the file at `o`. -/
theorem FileLaws.wp_restore (hL : FileLaws env data) {o : ℕ} (ho : o ≤ int64Max)
    (h : CanReturn o st) {Q : Except Errno Unit → FileSt σ → Prop} {E : Errno → FileSt σ → Prop}
    (hQ : ∀ r, Q r ⟨st.fs, { st.file with fpos := o }⟩) :
    wp (env.lwext4.fseek (int64 o) .seekSet).attempt Q E st := by
  rw [wp_attempt, int64_of_le ho]
  refine hL.wp_seek (fun _ => hQ _) fun hlt => ?_
  have hpos : st.file.fpos = o := h.resolve_right (Nat.not_le_of_lt hlt)
  have hsame : (⟨st.fs, { st.file with fpos := o }⟩ : FileSt σ) = st := by
    rw [← hpos]
  exact hsame ▸ hQ _

theorem wp_firstError {τ α : Type} {s : τ} (r : Except Errno α) (r' : Except Errno Unit)
    {Q : α → τ → Prop} {E : Errno → τ → Prop} (hQ : ∀ a, Q a s) (hE : ∀ e, E e s) :
    wp (firstError r r' : Prog Empty Errno τ α) Q E s := by
  unfold firstError
  simp only [wp_bind, wp_ofExcept, wp_pure]
  exact ⟨fun a _ => ⟨fun _ _ => hQ a, fun e _ => hE e⟩, fun e _ => hE e⟩

/-- What a growth leaves of a file that stood at `o`. -/
structure Grown (data : σ → ℕ → List UInt8) (st st' : FileSt σ) : Prop where
  fpos : st'.file.fpos = st.file.fpos
  inode : st'.file.inode = st.file.inode
  size : sizeOf data st ≤ sizeOf data st'

theorem sizeOf_congr {st' : FileSt σ} (hd : data st'.fs = data st.fs)
    (hi : st'.file.inode = st.file.inode) : sizeOf data st' = sizeOf data st := by
  unfold sizeOf
  rw [hd, hi]

/-- The work between saving and restoring the offset of a growth. -/
theorem FileLaws.wp_growFrom (hL : FileLaws env data) (grow : GrowBuffer) (st : FileSt σ)
    {newSize : ℕ}
    (hfsize : st.file.fsize = sizeOf data st) (hpos : st.file.fpos ≤ sizeOf data st)
    (hgrow : sizeOf data st < newSize) (hmax : newSize ≤ int64Max) :
    wp (do
        env.lwext4.fseek (int64 (sizeOf data st)) .seekSet
        growLoop env grow newSize (newSize - sizeOf data st) (sizeOf data st))
      (fun _ st' => st'.file.inode = st.file.inode ∧ CanReturn st.file.fpos st' ∧
        sizeOf data st ≤ sizeOf data st' ∧ newSize ≤ sizeOf data st')
      (fun _ st' => st'.file.inode = st.file.inode ∧ CanReturn st.file.fpos st' ∧
        sizeOf data st ≤ sizeOf data st') st := by
  rw [wp_bind, int64_of_le (by omega)]
  refine hL.wp_seek (fun _ => ?_) fun hlt => ?_
  · have hend : AtEnd data (⟨st.fs, { st.file with fpos := sizeOf data st }⟩ : FileSt σ) :=
      ⟨rfl, hfsize⟩
    refine wp_mono (hL.wp_growLoop hend rfl (Nat.le_of_eq (by
      show newSize = sizeOf data st + _
      omega))) ?_ ?_
    · rintro _ st₁ ⟨h₁, h₂, h₃, h₄⟩
      exact ⟨h₂, Or.inr (h₁.fsize ▸ Nat.le_trans hpos h₄), h₄, h₃⟩
    · rintro _ st₁ ⟨h₁, h₂, h₃⟩
      exact ⟨h₁, Or.inr (h₃ ▸ Nat.le_trans hpos h₂), h₂⟩
  · exact absurd hlt (Nat.not_lt_of_le (Nat.le_of_eq hfsize.symm))

/-- **Growing** a file keeps its offset, when the file reaches it. -/
theorem FileLaws.wp_resize_grow (hL : FileLaws env data) (grow : GrowBuffer) (path : CStr)
    (st : FileSt σ) {newSize : ℕ} (hgrow : sizeOf data st < newSize) (hmax : newSize ≤ int64Max)
    (hpos : st.file.fpos ≤ sizeOf data st) :
    wp (resizeFileLocked env grow path newSize)
      (fun _ st' => Grown data st st' ∧ newSize ≤ sizeOf data st')
      (fun _ st' => Grown data st st') st := by
  unfold resizeFileLocked
  rw [wp_bind, wp_failIf]
  refine ⟨fun _ => ⟨rfl, rfl, Nat.le_refl _⟩, fun _ => ?_⟩
  rw [wp_bind]
  refine wp_mono (hL.wp_currentFileSize path) ?_ ?_
  · rintro size ⟨fs, file⟩ ⟨hdata, hfile, hsize⟩
    obtain rfl : file = st.file := hfile
    have hsz : sizeOf data st = size := hsize.symm
    rw [wp_ite]
    refine ⟨fun hle => absurd (hsz ▸ hgrow) (Nat.not_lt_of_le hle), fun _ => ?_⟩
    unfold ftell
    simp only [wp_bind, wp_getState, wp_pure]
    refine (wp_update _).mpr ?_
    have hsize₂ : sizeOf data (⟨fs, { st.file with fsize := size }⟩ : FileSt σ) = size :=
      (sizeOf_congr hdata rfl).trans hsz
    have hwork := hL.wp_growFrom grow ⟨fs, { st.file with fsize := size }⟩ hsize₂.symm
      (by rw [hsize₂, ← hsz]; exact hpos) (by rw [hsize₂, ← hsz]; exact hgrow) hmax
    rw [hsize₂] at hwork
    -- whatever the work did, the seek back reaches the old offset
    have hback {st₂ : FileSt σ} (hi : st₂.file.inode = st.file.inode)
        (hs : size ≤ sizeOf data st₂) :
        Grown data st ⟨st₂.fs, { st₂.file with fpos := st.file.fpos }⟩ :=
      ⟨rfl, hi, hsz ▸ hs⟩
    have hpos' : st.file.fpos ≤ int64Max := by omega
    rw [wp_attempt]
    refine wp_mono hwork ?_ ?_
    · rintro _ st₂ ⟨h₁, h₂, h₃, h₄⟩
      refine hL.wp_restore hpos' h₂ fun r => ?_
      unfold firstError
      simp only [wp_bind, wp_ofExcept, wp_pure]
      exact ⟨fun _ _ => ⟨fun _ _ => ⟨hback h₁ h₃, h₄⟩, fun _ _ => hback h₁ h₃⟩,
        fun _ _ => hback h₁ h₃⟩
    · rintro e st₂ ⟨h₁, h₂, h₃⟩
      refine hL.wp_restore hpos' h₂ fun r => ?_
      unfold firstError
      simp only [wp_bind, wp_ofExcept, wp_pure]
      exact ⟨fun _ ha => (by cases ha), fun _ _ => hback h₁ h₃⟩
  · rintro e st₁ ⟨hdata, hfile⟩
    exact ⟨by rw [hfile], by rw [hfile], Nat.le_of_eq (sizeOf_congr hdata (by rw [hfile])).symm⟩

/-! ## Positioned transfers -/

/-- When a positioned transfer cannot lose the offset of its file: the inode still
reaches the offset, or the call does not move the file at all. -/
def Undisturbed (data : σ → ℕ → List UInt8) (st : FileSt σ) (request : IoRequest) (offset : ℕ) :
    Prop :=
  st.file.fpos ≤ sizeOf data st ∨ request.size = 0 ∨
    (request.isWrite = false ∧ sizeOf data st ≤ offset) ∨
    (offset ≤ sizeOf data st ∧ st.file.fsize < offset)

theorem FileLaws.wp_transfer (hL : FileLaws env data) (request : IoRequest)
    (hpos : st.file.fpos ≤ sizeOf data st) {o : ℕ} (ho : o ≤ sizeOf data st) :
    wp (transfer env request) (fun _ => CanReturn o) (fun _ => CanReturn o) st := by
  cases request with
  | read size =>
    have hread {st' : FileSt σ} (h : Refreshed data st st' ∧ data st'.fs = data st.fs) :
        CanReturn o st' := by
      refine Or.inr ?_
      rw [h.1.fsize, h.2]
      exact ho
    unfold transfer
    rw [wp_bind]
    exact wp_mono (hL.fread _ st) (fun _ _ => hread) fun _ _ => hread
  | write bytes =>
    have hwrite {st' : FileSt σ} {new : List UInt8} (h : Wrote data st st' new) :
        CanReturn o st' := by
      refine Or.inr ?_
      have hsize := h.size hpos
      unfold sizeOf at hsize ho
      rw [h.fsize, ← h.inode, hsize]
      exact Nat.le_trans ho (Nat.le_max_left _ _)
    unfold transfer
    rw [wp_bind]
    refine wp_mono (hL.fwrite _ st) ?_ ?_
    · rintro n st' ⟨-, hw, -⟩
      exact hwrite hw
    · rintro e st' ⟨n, -, hw⟩
      exact hwrite hw

/-- The seek and the transfer, from a file that stands at `o`. -/
theorem FileLaws.wp_seekTransfer (hL : FileLaws env data) (st : FileSt σ) {request : IoRequest}
    {offset : ℕ}
    (h : offset ≤ st.file.fsize →
      offset ≤ sizeOf data st ∧ st.file.fpos ≤ sizeOf data st) :
    wp (do
        env.lwext4.fseek offset .seekSet
        transfer env request)
      (fun _ => CanReturn st.file.fpos) (fun _ => CanReturn st.file.fpos) st := by
  rw [wp_bind]
  refine hL.wp_seek (fun hle => ?_) fun _ => Or.inl rfl
  obtain ⟨hoff, ho⟩ := h hle
  exact hL.wp_transfer request hoff ho

theorem FileLaws.wp_transferAt (hL : FileLaws env data) {grow : GrowBuffer} {path : CStr}
    {request : IoRequest} {offset : ℕ} (hmax : offset ≤ int64Max)
    (hne : request.size ≠ 0) (h : Undisturbed data st request offset) :
    wp (transferAt env grow path request offset)
      (fun _ => CanReturn st.file.fpos) (fun _ => CanReturn st.file.fpos) st := by
  unfold transferAt
  rw [wp_bind]
  refine wp_mono (hL.wp_currentFileSize path) ?_ fun _ st₁ h₁ => Or.inl (by rw [h₁.2])
  rintro size ⟨fs, file⟩ ⟨hdata, hfile, hsize⟩
  obtain rfl : file = st.file := hfile
  have hsz : sizeOf data st = size := hsize.symm
  have hsz₁ : sizeOf data (⟨fs, st.file⟩ : FileSt σ) = size := (sizeOf_congr hdata rfl).trans hsz
  unfold Undisturbed at h
  rw [hsz] at h
  rw [wp_bind, wp_whenever]
  constructor
  · -- `pwrite` beyond the end: the file grows to the offset first
    rintro ⟨hw, hlt⟩
    have ho : st.file.fpos ≤ size := by
      rcases h with h | h | ⟨h, -⟩ | ⟨h, -⟩
      · exact h
      · exact absurd h hne
      · rw [hw] at h
        cases h
      · exact absurd hlt (Nat.not_lt_of_le h)
    have hgrow := hL.wp_resize_grow grow path ⟨fs, st.file⟩ (by rw [hsz₁]; exact hlt) hmax
      (by rw [hsz₁]; exact ho)
    refine wp_mono hgrow ?_ fun _ st₂ h₂ => Or.inl h₂.fpos
    rintro _ st₂ ⟨h₂, hoff⟩
    rw [wp_ite]
    refine ⟨fun hc => (by rw [hw] at hc; cases hc.1), fun _ => ?_⟩
    have hpos : st₂.file.fpos = st.file.fpos := h₂.fpos
    rw [← hpos]
    refine hL.wp_seekTransfer st₂ fun _ => ⟨hoff, ?_⟩
    rw [hpos]
    exact Nat.le_trans ho (hsz₁ ▸ h₂.size)
  · intro hnw
    rw [wp_ite]
    refine ⟨fun _ => Or.inl rfl, fun hnr => ?_⟩
    refine hL.wp_seekTransfer ⟨fs, st.file⟩ fun hle => ?_
    rw [hsz₁]
    have hoff : offset ≤ size := by
      cases hw : request.isWrite with
      | true =>
        by_contra hn
        exact hnw ⟨hw, Nat.lt_of_not_le hn⟩
      | false =>
        by_contra hn
        exact hnr ⟨hw, Nat.le_of_lt (Nat.lt_of_not_le hn)⟩
    refine ⟨hoff, ?_⟩
    rcases h with h | h | ⟨h, hge⟩ | ⟨-, hlt⟩
    · exact h
    · exact absurd h hne
    · exact absurd ⟨h, hge⟩ hnr
    · exact absurd hle (Nat.not_le_of_lt hlt)

/-- **A positioned transfer keeps the offset.** -/
theorem FileLaws.wp_positionedIo (hL : FileLaws env data) (grow : GrowBuffer) (path : CStr)
    {request : IoRequest} {offset : ℕ} (hmax : offset ≤ int64Max)
    (h : Undisturbed data st request offset) :
    wp (positionedIoLocked env grow path request offset)
      (fun _ st' => st'.file.fpos = st.file.fpos) (fun _ st' => st'.file.fpos = st.file.fpos)
      st := by
  unfold positionedIoLocked ftell
  simp only [wp_bind, wp_getState, wp_pure, wp_failIf]
  refine ⟨fun _ => trivial, fun hmax₀ => ?_⟩
  have back {r : Except Errno Transferred} {st₁ : FileSt σ} (hc : CanReturn st.file.fpos st₁) :
      wp (env.lwext4.fseek (int64 st.file.fpos) .seekSet).attempt
        (fun r' st' => wp (firstError r r') (fun _ st' => st'.file.fpos = st.file.fpos)
          (fun _ st' => st'.file.fpos = st.file.fpos) st')
        (fun _ st' => st'.file.fpos = st.file.fpos) st₁ :=
    hL.wp_restore (Nat.le_of_not_lt hmax₀) hc fun r' => wp_firstError r r' (fun _ => rfl) fun _ => rfl
  rw [wp_attempt, wp_ite]
  refine ⟨fun _ => back (Or.inl rfl), fun hne => ?_⟩
  exact wp_mono (hL.wp_transferAt hmax hne h) (fun _ _ => back) fun _ _ => back

end File

/-! ## Calls on a descriptor -/

/-- The file of a descriptor. -/
def fileAt (st : MountSt σ D) (fd : ℤ) : FileSt σ := ⟨st.fs, (st.ctx.file fd.toNat).file⟩

/-- `ext4_ftell` of a descriptor -/
def offsetAt (st : MountSt σ D) (fd : ℤ) : ℕ := (fileAt st fd).file.fpos

/-- `pread`, `pwrite` and a growing `ftruncate` leave the offset of their descriptor as
it was, whatever they return; their arguments are of type `off_t`. -/
def OffsetKept (data : σ → ℕ → List UInt8) (env : Env σ D) (st : MountSt σ D) : MountOp → Prop
  | .pread fd size offset => offset ≤ int64Max →
    offsetAt ((MountOp.pread fd size offset).exec env st) fd = offsetAt st fd
  | .pwrite fd bytes offset => offset ≤ int64Max →
    offsetAt ((MountOp.pwrite fd bytes offset).exec env st) fd = offsetAt st fd
  | .ftruncate fd length => length ≤ int64Max → sizeOf data (fileAt st fd) < length →
    offsetAt ((MountOp.ftruncate fd length).exec env st) fd = offsetAt st fd
  | _ => True

def accModeAt (st : MountSt σ D) (fd : ℤ) : AccMode := (st.ctx.file fd.toNat).flags.accMode

/-- The inode still reaches the offset of the descriptor, or the call is refused or does
not move it. -/
def OffsetSafe (data : σ → ℕ → List UInt8) (st : MountSt σ D) : MountOp → Prop
  | .pread fd size offset => offset < 0 ∨ accModeAt st fd = .wronly ∨
    Undisturbed data (fileAt st fd) (.read size) offset.toNat
  | .pwrite fd bytes offset => offset < 0 ∨ st.ctx.readOnly = true ∨ accModeAt st fd = .rdonly ∨
    Undisturbed data (fileAt st fd) (.write bytes) offset.toNat
  | .ftruncate fd length => st.ctx.readOnly = true ∨ accModeAt st fd = .rdonly ∨
    (sizeOf data (fileAt st fd) < length → offsetAt st fd ≤ sizeOf data (fileAt st fd))
  | _ => True

/-- Work that keeps the position of the file keeps the offset of the descriptor. -/
theorem FileLaws.offset_onOpenFile (hL : FileLaws env data) {α : Type} {st : MountSt σ D} {fd : ℤ}
    {forbidden : Option AccMode} {m : GrowBuffer → EspFile → Call (FileSt σ) α}
    (h : ∀ grow slot fs, data fs = data st.fs → slot.file = (st.ctx.file fd.toNat).file →
      some (accModeAt st fd) ≠ forbidden →
      wp (m grow slot) (fun _ fst => fst.file.fpos = offsetAt st fd)
        (fun _ fst => fst.file.fpos = offsetAt st fd) ⟨fs, slot.file⟩) :
    wp (onOpenFile env fd forbidden m) (fun _ st' => offsetAt st' fd = offsetAt st fd)
      (fun _ st' => offsetAt st' fd = offsetAt st fd) st := by
  refine hL.wp_onOpenFile (fun _ _ _ => rfl) fun fs hfs hused hacc => ?_
  have hset {fst : FileSt σ} (hpos : fst.file.fpos = offsetAt st fd) :
      offsetAt (⟨fst.fs, st.ctx.setFile fd.toNat
        { st.ctx.file fd.toNat with file := fst.file }⟩ : MountSt σ D) fd = offsetAt st fd := by
    unfold offsetAt fileAt
    rw [file_setFile st.ctx _ hused]
    exact hpos
  exact wp_mono (h st.ctx.growBuffer (st.ctx.file fd.toNat) fs hfs rfl hacc) (fun _ _ => hset)
    fun _ _ => hset

theorem sizeOf_at {st : MountSt σ D} {fd : ℤ} {st' : FileSt σ} (hd : data st'.fs = data st.fs)
    (hi : st'.file.inode = (fileAt st fd).file.inode) :
    sizeOf data st' = sizeOf data (fileAt st fd) := sizeOf_congr hd hi

/-- The call is refused before it touches the file. -/
def PositionedRefused (st : MountSt σ D) (fd : ℤ) (request : IoRequest) (offset : ℤ) : Prop :=
  offset < 0 ∨ (request.isWrite = true ∧ st.ctx.readOnly = true) ∨
    accModeAt st fd = if request.isWrite then .rdonly else .wronly

theorem FileLaws.offset_positionedIo (hL : FileLaws env data) {st : MountSt σ D} {fd : ℤ}
    {request : IoRequest} {offset : ℤ} (hmax : offset ≤ int64Max)
    (h : PositionedRefused st fd request offset ∨
      Undisturbed data (fileAt st fd) request offset.toNat) :
    offsetAt ((positionedIo env fd request offset).final st) fd = offsetAt st fd := by
  refine final_of_wp (P := fun st' => offsetAt st' fd = offsetAt st fd) ?_
  unfold positionedIo
  rw [wp_bind, wp_failIf]
  refine ⟨fun _ => rfl, fun hoff => ?_⟩
  have hrun (hro : ¬ (request.isWrite = true ∧ st.ctx.readOnly = true)) :
      wp (onOpenFile env fd (some (if request.isWrite then .rdonly else .wronly))
      fun grow slot => positionedIoLocked env grow slot.path request offset.toNat)
      (fun _ st' => offsetAt st' fd = offsetAt st fd)
      (fun _ st' => offsetAt st' fd = offsetAt st fd) st := by
    refine hL.offset_onOpenFile fun grow slot fs hfs hslot hacc => ?_
    have hund' : Undisturbed data (fileAt st fd) request offset.toNat := by
      rcases h with (h | h | h) | h
      · exact absurd h hoff
      · exact absurd h hro
      · exact absurd (congrArg some h) hacc
      · exact h
    have hfile : (⟨fs, slot.file⟩ : FileSt σ).file = (fileAt st fd).file := hslot
    have hund : Undisturbed data (⟨fs, slot.file⟩ : FileSt σ) request offset.toNat := by
      unfold Undisturbed at hund' ⊢
      rw [sizeOf_at hfs (congrArg Ext4File.inode hfile), hfile]
      exact hund'
    have hpos : slot.file.fpos = offsetAt st fd := congrArg Ext4File.fpos hfile
    have hwork := hL.wp_positionedIo grow slot.path (by omega : offset.toNat ≤ int64Max) hund
    exact wp_mono hwork (fun _ _ hp => hp.trans hpos) fun _ _ hp => hp.trans hpos
  rw [wp_bind, wp_whenever]
  refine ⟨fun hw => ?_, fun hnw => hrun fun hc => hnw hc.1⟩
  unfold refuseReadOnly
  simp only [wp_bind, wp_getState, wp_failIf]
  exact ⟨fun _ => trivial, fun hro => hrun fun hc => hro hc.2⟩

/-- **One call.** -/
theorem FileLaws.offsetKept (hL : FileLaws env data) {st : MountSt σ D} (op : MountOp)
    (h : OffsetSafe data st op) : OffsetKept data env st op := by
  cases op with
  | pread fd size offset =>
    intro hmax
    refine hL.offset_positionedIo hmax ?_
    rcases h with h | h | h
    · exact Or.inl (Or.inl h)
    · exact Or.inl (Or.inr (Or.inr h))
    · exact Or.inr h
  | pwrite fd bytes offset =>
    intro hmax
    refine hL.offset_positionedIo hmax ?_
    rcases h with h | h | h | h
    · exact Or.inl (Or.inl h)
    · exact Or.inl (Or.inr (Or.inl ⟨rfl, h⟩))
    · exact Or.inl (Or.inr (Or.inr h))
    · exact Or.inr h
  | ftruncate fd length =>
    intro hmax hgrow
    refine final_of_wp (P := fun st' => offsetAt st' fd = offsetAt st fd) ?_
    show wp (vfsLwext4Ftruncate env fd length) _ _ _
    unfold vfsLwext4Ftruncate refuseReadOnly
    simp only [wp_bind, wp_getState, wp_failIf]
    refine ⟨fun _ => trivial, fun _ => ⟨fun _ => trivial, fun hro => ?_⟩⟩
    refine hL.offset_onOpenFile fun grow slot fs hfs hslot hacc => ?_
    have hfile : (⟨fs, slot.file⟩ : FileSt σ).file = (fileAt st fd).file := hslot
    have hsize : sizeOf data (⟨fs, slot.file⟩ : FileSt σ) = sizeOf data (fileAt st fd) :=
      sizeOf_congr hfs (congrArg Ext4File.inode hfile)
    have hpos : slot.file.fpos = offsetAt st fd := congrArg Ext4File.fpos hfile
    have hin : offsetAt st fd ≤ sizeOf data (fileAt st fd) := by
      rcases h with h | h | h
      · exact absurd h hro
      · exact absurd (congrArg some h) hacc
      · exact h hgrow
    have hwork := hL.wp_resize_grow grow slot.path ⟨fs, slot.file⟩
      (by rw [hsize]; omega : sizeOf data (⟨fs, slot.file⟩ : FileSt σ) < length.toNat)
      (by omega) (by rw [hsize]; exact hpos.symm ▸ hin)
    exact wp_mono hwork (fun _ _ hp => hp.1.fpos.trans hpos) fun _ _ hp => hp.fpos.trans hpos
  | _ => trivial

/-- **The offset over runs.** In every run whose `pread`, `pwrite` and growing
`ftruncate` calls find the offset of their descriptor within the inode, or do not
move it, each of these calls leaves the offset as it was, whether it succeeds or
fails. -/
theorem offsets_kept (env : Env σ D) (data : σ → ℕ → List UInt8) (hL : FileLaws env data)
    (st : MountSt σ D) (ops : List MountOp)
    (h : Along (MountOp.exec env) (fun st op => OffsetSafe data st op) st ops) :
    Along (MountOp.exec env) (OffsetKept data env) st ops :=
  along_mono (fun _ op => hL.offsetKept op) h

end Adapter

/-! ## A lost offset -/

namespace Ram

def rdwrCreate : OpenFlags := ⟨.rdwr, false, true, false, false⟩

/-- Two descriptors of `/a`, which holds ten bytes; the first stands at the end. -/
def twoHandles : MountSt Ram (List Ext4Direntry) :=
  run (MountOp.exec env) mounted
    [.open_ pathA rdwrCreate, .write 0 [0, 1, 2, 3, 4, 5, 6, 7, 8, 9], .open_ pathA .rdwr]

/-- The calls of the first descriptor keep its offset, also when it writes beyond the
end and when the file grows. -/
theorem offset_kept :
    Along (MountOp.exec env) (OffsetKept data env) twoHandles
      [.pread 0 1 0, .pwrite 0 [9] 12, .ftruncate 0 15] := by
  refine offsets_kept env data fileLaws twoHandles _ ⟨?_, ?_, ?_, trivial⟩
  · exact Or.inr (Or.inr (Or.inl (by decide)))
  · exact Or.inr (Or.inr (Or.inr (Or.inl (by decide))))
  · exact Or.inr (Or.inr fun _ => (by decide))

/-- The second descriptor cuts the file to four bytes; then a `pread` of the first
reads its byte, cannot seek back to 10, and fails with the offset at 1. -/
theorem offset_lost :
    let st := run (MountOp.exec env) twoHandles [.ftruncate 1 4]
    offsetAt st 0 = 10 ∧ (vfsLwext4Pread env 0 1 0).answer st = .error .einval ∧
      offsetAt (MountOp.exec env st (.pread 0 1 0)) 0 = 1 ∧
      ¬ OffsetKept data env st (.pread 0 1 0) := by
  have h₀ : offsetAt (run (MountOp.exec env) twoHandles [.ftruncate 1 4]) 0 = 10 := by decide
  have h₁ : offsetAt (MountOp.exec env (run (MountOp.exec env) twoHandles [.ftruncate 1 4])
      (.pread 0 1 0)) 0 = 1 := by decide
  refine ⟨h₀, by decide, h₁, fun h => ?_⟩
  have h₂ := h (by decide)
  rw [h₀, h₁] at h₂
  cases h₂

end Ram

end EspLwext4.Port
