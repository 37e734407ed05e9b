import EspLwext4.Lib.Coupled
import EspLwext4.Port.Fstat
import EspLwext4.Port.Offsets

/-!
# Two descriptors of one file

`pread` and `pwrite` read the size from the inode, but seek within the size their
handle has cached. Two handles give the same results when they can make the same seeks:
the one to the offset of the call, and the one back to where they stood.
-/

namespace EspLwext4.Port

open Prog Runs

section Adapter

variable {σ D : Type} {env : Env σ D} {data : σ → ℕ → List UInt8}

/-- `ext4_fread` and `ext4_fwrite` refresh the cached size before they use it. -/
structure RefreshLaws (env : Env σ D) : Prop where
  fread : ∀ n fs i fsize fsize' fpos,
    env.lwext4.fread n ⟨fs, ⟨i, fsize, fpos⟩⟩ = env.lwext4.fread n ⟨fs, ⟨i, fsize', fpos⟩⟩
  fwrite : ∀ bytes fs i fsize fsize' fpos,
    env.lwext4.fwrite bytes ⟨fs, ⟨i, fsize, fpos⟩⟩ = env.lwext4.fwrite bytes ⟨fs, ⟨i, fsize', fpos⟩⟩

/-! ## Related handles -/

/-- Two handles of one inode. -/
structure OneInode (a b : FileSt σ) : Prop where
  fs : b.fs = a.fs
  inode : b.file.inode = a.file.inode

/-- They can seek back to `o` and `o'`, or neither can. -/
structure BackAlike (o o' : ℕ) (a b : FileSt σ) : Prop extends OneInode a b where
  back : o ≤ a.file.fsize ↔ o' ≤ b.file.fsize

/-- The two handles can make the same seeks: each can seek to where it stands or neither
can, and their cached sizes and their offsets are equal or do not matter. -/
structure Alike (data : σ → ℕ → List UInt8) (a b : FileSt σ) : Prop
    extends BackAlike a.file.fpos b.file.fpos a b where
  fsize : a.file.fsize = b.file.fsize ∨
    (sizeOf data a ≤ a.file.fsize ∧ sizeOf data a ≤ b.file.fsize)
  fpos : a.file.fpos = b.file.fpos ∨
    (a.file.fpos ≤ sizeOf data a ∧ b.file.fpos ≤ sizeOf data a)
  representable : int64Max < a.file.fpos ↔ int64Max < b.file.fpos

/-- The handles can both seek to the offset of the call or neither can; it lies within the
file. -/
structure ReadyAt (data : σ → ℕ → List UInt8) (o o' offset : ℕ) (a b : FileSt σ) : Prop
    extends BackAlike o o' a b where
  seek : offset ≤ a.file.fsize ↔ offset ≤ b.file.fsize
  inside : offset ≤ sizeOf data a
  offsets : o = o' ∨ (o ≤ sizeOf data a ∧ o' ≤ sizeOf data a)

/-- A size from `sizeOf` on does not tell the offsets apart. -/
theorem back_of_offsets {o o' size fsize : ℕ} (h : o = o' ∨ (o ≤ size ∧ o' ≤ size))
    (hle : size ≤ fsize) : o ≤ fsize ↔ o' ≤ fsize := by
  rcases h with rfl | ⟨h, h'⟩
  · exact Iff.rfl
  · exact iff_of_true (Nat.le_trans h hle) (Nat.le_trans h' hle)

/-! ## One call on the file -/

section File

variable {a b : FileSt σ}

theorem FileLaws.coupled_seek (hL : FileLaws env data) {o o' : ℕ}
    {R : Unit → FileSt σ → FileSt σ → Prop} {E : Errno → FileSt σ → FileSt σ → Prop}
    (h : o ≤ a.file.fsize ↔ o' ≤ b.file.fsize)
    (hR : o ≤ a.file.fsize → R () ⟨a.fs, { a.file with fpos := o }⟩
      ⟨b.fs, { b.file with fpos := o' }⟩)
    (hE : ¬ o ≤ a.file.fsize → E .einval a b) :
    Coupled (env.lwext4.fseek o .seekSet) (env.lwext4.fseek o' .seekSet) R E a b := by
  have hsome (st : FileSt σ) {o : ℕ} (ho : o ≤ st.file.fsize) :
      env.lwext4.fseek o .seekSet st = .ok () ⟨st.fs, { st.file with fpos := o }⟩ :=
    hL.seek o st (Int.natCast_nonneg o) (Int.ofNat_le.mpr ho)
  have hnone (st : FileSt σ) {o : ℕ} (ho : ¬ o ≤ st.file.fsize) :
      env.lwext4.fseek o .seekSet st = .err .einval st :=
    hL.seek_refused o st fun hn => ho (Int.ofNat_le.mp hn.2)
  by_cases ho : o ≤ a.file.fsize
  · exact Or.inl ⟨(), _, _, hsome a ho, hsome b (h.mp ho), hR ho⟩
  · exact Or.inr ⟨.einval, _, _, hnone a ho, hnone b (mt h.mpr ho), hE ho⟩

/-- Both read the size of the same inode through the same path. -/
theorem FileLaws.coupled_currentFileSize (hL : FileLaws env data) (path : CStr)
    (h : OneInode a b) :
    Coupled (currentFileSizeLocked env path) (currentFileSizeLocked env path)
      (fun size a' b' => (b'.fs = a'.fs ∧ b'.file = b.file) ∧
        data a'.fs = data a.fs ∧ a'.file = a.file ∧ size = sizeOf data a)
      (fun _ a' b' => (b'.fs = a'.fs ∧ b'.file = b.file) ∧
        data a'.fs = data a.fs ∧ a'.file = a.file) a b := by
  refine Coupled.and_wp ?_ (hL.wp_currentFileSize path)
  have hzoom {α : Type} (m : Call σ α) (a' b' : FileSt σ) (hfs : b'.fs = a'.fs) :
      Coupled (zoom FileSt.fsLens m) (zoom FileSt.fsLens m)
        (fun _ a'' b'' => b''.fs = a''.fs ∧ a''.file = a'.file ∧ b''.file = b'.file)
        (fun _ a'' b'' => b''.fs = a''.fs ∧ a''.file = a'.file ∧ b''.file = b'.file) a' b' := by
    refine Coupled.zoom (coupled_of_eq (congrArg m hfs.symm) ?_)
    exact wp_of_forall (fun _ _ => ⟨rfl, rfl, rfl⟩) fun _ _ => ⟨rfl, rfl, rfl⟩
  unfold currentFileSizeLocked
  refine Coupled.bind ((hzoom _ a b h.fs).mono (fun _ _ _ h => h) fun _ _ _ h => ⟨h.1, h.2.2⟩) ?_
  rintro ⟨number, inode⟩ a₁ b₁ ⟨hfs, ha, hb⟩
  refine Coupled.of_runs (bind_of_ok rfl) (bind_of_ok rfl) ?_
  have hinode : b₁.file.inode = a₁.file.inode := by rw [ha, hb, h.inode]
  rw [hinode]
  refine Coupled.bind (R := fun _ a' b' => a' = a₁ ∧ b' = b₁)
    (Coupled.failIf (fun _ => ⟨hfs, hb⟩) fun _ => ⟨rfl, rfl⟩) ?_
  rintro _ a₁ b₁ ⟨rfl, rfl⟩
  refine Coupled.bind ((hzoom _ a₁ b₁ hfs).mono (fun _ _ _ h => h) fun _ _ _ h => ⟨h.1, h.2.2.trans hb⟩) ?_
  rintro _ a₂ b₂ ⟨hfs₂, -, hb₂⟩
  exact Coupled.pure ⟨hfs₂, hb₂.trans hb⟩

/-- A transfer leaves at least the old size in the cache. -/
theorem FileLaws.wp_transfer_fsize (hL : FileLaws env data) (request : IoRequest) {st : FileSt σ}
    (hpos : st.file.fpos ≤ sizeOf data st) :
    wp (transfer env request) (fun _ st' => sizeOf data st ≤ st'.file.fsize)
      (fun _ st' => sizeOf data st ≤ st'.file.fsize) st := by
  cases request with
  | read size =>
    have hread {st' : FileSt σ} (h : Refreshed data st st' ∧ data st'.fs = data st.fs) :
        sizeOf data st ≤ st'.file.fsize := by
      rw [h.1.fsize, h.2]
      exact Nat.le_refl _
    unfold transfer
    rw [wp_bind]
    exact wp_mono (hL.fread _ st) (fun _ _ => hread) fun _ _ => hread
  | write bytes =>
    have hwrite {st' : FileSt σ} {new : List UInt8} (h : Wrote data st st' new) :
        sizeOf data st ≤ st'.file.fsize := by
      have hfsize : st'.file.fsize = sizeOf data st' := by
        rw [h.fsize]
        unfold sizeOf
        rw [h.inode]
      rw [hfsize, h.size hpos]
      exact Nat.le_max_left _ _
    unfold transfer
    rw [wp_bind]
    refine wp_mono (hL.fwrite _ st) ?_ ?_
    · rintro n st' ⟨-, hw, -⟩
      exact hwrite hw
    · rintro e st' ⟨n, -, hw⟩
      exact hwrite hw

theorem RefreshLaws.transfer_congr (hR : RefreshLaws env) (request : IoRequest) (fs : σ)
    (i fsize fsize' fpos : ℕ) :
    transfer env request ⟨fs, ⟨i, fsize, fpos⟩⟩ = transfer env request ⟨fs, ⟨i, fsize', fpos⟩⟩ := by
  cases request with
  | read size =>
    show andThen (env.lwext4.fread _) _ _ = andThen (env.lwext4.fread _) _ _
    unfold andThen
    rw [hR.fread _ fs i fsize fsize' fpos]
  | write bytes =>
    show andThen (env.lwext4.fwrite _) _ _ = andThen (env.lwext4.fwrite _) _ _
    unfold andThen
    rw [hR.fwrite _ fs i fsize fsize' fpos]

/-- The seek and the transfer. -/
theorem FileLaws.coupled_seekTransfer (hL : FileLaws env data) (hR : RefreshLaws env)
    (request : IoRequest) {o o' offset : ℕ} (h : ReadyAt data o o' offset a b) :
    Coupled
      (do
        env.lwext4.fseek offset .seekSet
        transfer env request)
      (do
        env.lwext4.fseek offset .seekSet
        transfer env request)
      (fun _ => BackAlike o o') (fun _ => BackAlike o o') a b := by
  refine Coupled.bind (R := fun _ a' b' => a' = ⟨a.fs, { a.file with fpos := offset }⟩ ∧
      b' = ⟨b.fs, { b.file with fpos := offset }⟩)
    (hL.coupled_seek h.seek (fun _ => ⟨rfl, rfl⟩) fun _ => h.toBackAlike) ?_
  rintro _ _ _ ⟨rfl, rfl⟩
  have hb : (⟨b.fs, { b.file with fpos := offset }⟩ : FileSt σ) =
      ⟨a.fs, ⟨a.file.inode, b.file.fsize, offset⟩⟩ := by
    rw [h.fs, ← h.inode]
  rw [hb]
  refine coupled_of_eq (hR.transfer_congr request a.fs a.file.inode _ _ offset) ?_
  have hkept : wp _ _ _ (⟨a.fs, { a.file with fpos := offset }⟩ : FileSt σ) :=
    hL.wp_transfer_fsize request h.inside
  have hback {st : FileSt σ} (hle : sizeOf data a ≤ st.file.fsize) : BackAlike o o' st st :=
    ⟨⟨rfl, rfl⟩, back_of_offsets h.offsets hle⟩
  exact wp_mono hkept (fun _ _ => hback) fun _ _ => hback

/-- The seek back, from two states in which it succeeds or fails alike. -/
theorem FileLaws.coupled_restore (hL : FileLaws env data) {o o' : ℕ} (ho : o ≤ int64Max)
    (ho' : o' ≤ int64Max) (h : BackAlike o o' a b)
    {R : Except Errno Unit → FileSt σ → FileSt σ → Prop} {E : Errno → FileSt σ → FileSt σ → Prop}
    (hR : ∀ r a' b', BackAlike o o' a' b' → a'.file.fsize = a.file.fsize →
      b'.file.fsize = b.file.fsize → a'.fs = a.fs → a'.file.inode = a.file.inode → R r a' b') :
    Coupled (env.lwext4.fseek (int64 o) .seekSet).attempt
      (env.lwext4.fseek (int64 o') .seekSet).attempt R E a b := by
  rw [int64_of_le ho, int64_of_le ho']
  refine Coupled.attempt (hL.coupled_seek h.back (fun _ => ?_) fun _ => ?_)
  · exact hR _ _ _ ⟨⟨h.fs, h.inode⟩, h.back⟩ rfl rfl rfl rfl
  · exact hR _ _ _ h rfl rfl rfl rfl

theorem coupled_firstError {τ α : Type} {s t : τ} {R : α → τ → τ → Prop} {E : Errno → τ → τ → Prop}
    (r : Except Errno α) (r' : Except Errno Unit)
    (hR : ∀ x, r = .ok x → r' = .ok () → R x s t) (hE : ∀ e, E e s t) :
    Coupled (firstError r r' : Prog Empty Errno τ α) (firstError r r') R E s t := by
  unfold firstError
  refine Coupled.bind (R := fun x s' t' => s' = s ∧ t' = t ∧ r = .ok x)
    (Coupled.ofExcept (fun x hx => ⟨rfl, rfl, hx⟩) fun e _ => hE e) ?_
  rintro x _ _ ⟨rfl, rfl, hx⟩
  exact Coupled.bind (R := fun _ s' t' => R x s' t')
    (Coupled.ofExcept (fun _ hr' => hR x hx hr') fun e _ => hE e) fun _ _ _ h => Coupled.pure h

/-- **Growing the file through either handle.** -/
theorem FileLaws.coupled_resize (hL : FileLaws env data) (grow : GrowBuffer) (path : CStr)
    {newSize : ℕ} (hmax : newSize ≤ int64Max) (h : BackAlike a.file.fpos b.file.fpos a b)
    (ho : a.file.fpos ≤ int64Max) (ho' : b.file.fpos ≤ int64Max)
    (hoff : a.file.fpos = b.file.fpos ∨ (a.file.fpos ≤ sizeOf data a ∧ b.file.fpos ≤ sizeOf data a))
    (hgrow : sizeOf data a < newSize) :
    Coupled (resizeFileLocked env grow path newSize) (resizeFileLocked env grow path newSize)
      (fun _ => ReadyAt data a.file.fpos b.file.fpos newSize)
      (fun _ => BackAlike a.file.fpos b.file.fpos) a b := by
  unfold resizeFileLocked
  refine Coupled.bind (R := fun _ a' b' => a' = a ∧ b' = b)
    (Coupled.failIf (fun _ => h) fun _ => ⟨rfl, rfl⟩) ?_
  rintro _ a b ⟨rfl, rfl⟩
  refine Coupled.bind ((hL.coupled_currentFileSize path h.toOneInode).mono (fun _ _ _ h => h) ?_) ?_
  · rintro _ a' b' ⟨⟨hfs, hb⟩, -, ha⟩
    exact ⟨⟨hfs, by rw [ha, hb, h.inode]⟩, by rw [ha, hb]; exact h.back⟩
  rintro size ⟨fs, file⟩ ⟨fs', file'⟩ ⟨⟨hfs, hb⟩, hdata, ha, hsize⟩
  obtain rfl : fs' = fs := hfs
  obtain rfl : file = a.file := ha
  obtain rfl : file' = b.file := hb
  have hsize' : sizeOf data (⟨fs', a.file⟩ : FileSt σ) = size :=
    (sizeOf_congr hdata rfl).trans hsize.symm
  have hlt : size < newSize := hsize ▸ hgrow
  have hsmax : size ≤ int64Max := Nat.le_trans (Nat.le_of_lt hlt) hmax
  rw [if_neg (Nat.not_le_of_lt hlt), int64_of_le hsmax]
  refine Coupled.of_runs (bind_of_ok rfl) (bind_of_ok rfl) ?_
  refine Coupled.of_runs (bind_of_ok rfl) (bind_of_ok rfl) ?_
  -- from the seek on, both handles are in the same state
  refine Coupled.bind (R := fun result a' b' => b' = a' ∧ size ≤ sizeOf data a' ∧
    a'.file.fsize = sizeOf data a' ∧ (result = .ok () → newSize ≤ sizeOf data a')) ?_ ?_
  · refine Coupled.attempt (Coupled.bind (R := fun _ a' b' => b' = a' ∧
      a' = ⟨fs', ⟨a.file.inode, size, size⟩⟩) (hL.coupled_seek Iff.rfl (fun _ => ⟨?_, rfl⟩)
        fun hn => absurd (Nat.le_refl size) hn) ?_)
    · show (⟨fs', ⟨b.file.inode, size, size⟩⟩ : FileSt σ) = ⟨fs', ⟨a.file.inode, size, size⟩⟩
      rw [h.inode]
    · rintro _ _ _ ⟨rfl, rfl⟩
      have hend : AtEnd data (⟨fs', ⟨a.file.inode, size, size⟩⟩ : FileSt σ) :=
        ⟨hsize'.symm, hsize'.symm⟩
      refine coupled_of_eq rfl (wp_mono (hL.wp_growLoop hend hsize' (by omega)) ?_ ?_)
      · rintro _ st' ⟨hend', -, hnew, hcur⟩
        exact ⟨rfl, hcur, hend'.fsize, fun _ => hnew⟩
      · rintro _ st' ⟨-, hcur, hfsize⟩
        exact ⟨rfl, hcur, hfsize, nofun⟩
  rintro result _ a' ⟨rfl, hcur, hfsize, hnew⟩
  have hback : BackAlike a.file.fpos b.file.fpos a' a' :=
    ⟨⟨rfl, rfl⟩, back_of_offsets hoff (by rw [hfsize, ← hsize]; exact hcur)⟩
  refine Coupled.bind (hL.coupled_restore ho ho' hback (E := fun _ => BackAlike a.file.fpos b.file.fpos)
    (R := fun _ a'' b'' => BackAlike a.file.fpos b.file.fpos a'' b'' ∧
      a''.file.fsize = a'.file.fsize ∧ b''.file.fsize = a'.file.fsize ∧
      sizeOf data a'' = sizeOf data a')
    fun _ a'' b'' h₁ h₂ h₃ h₄ h₅ => ⟨h₁, h₂, h₃, sizeOf_congr (by rw [h₄]) h₅⟩) ?_
  rintro restore a'' b'' ⟨h₁, h₂, h₃, h₄⟩
  refine coupled_firstError result restore (fun _ hr _ => ?_) fun _ => h₁
  have hin : newSize ≤ sizeOf data a'' := by
    rw [h₄]
    exact hnew hr
  refine ⟨h₁, by rw [h₂, h₃], hin, ?_⟩
  rw [h₄]
  rcases hoff with heq | ⟨hle, hle'⟩
  · exact Or.inl heq
  · rw [← hsize] at hle hle'
    exact Or.inr ⟨Nat.le_trans hle hcur, Nat.le_trans hle' hcur⟩

/-- The part of a positioned transfer between saving and restoring the offset. -/
theorem FileLaws.coupled_transferAt (hL : FileLaws env data) (hR : RefreshLaws env)
    (grow : GrowBuffer) (path : CStr) (request : IoRequest) {offset : ℕ} (hmax : offset ≤ int64Max)
    (h : Alike data a b) (ho : a.file.fpos ≤ int64Max) (ho' : b.file.fpos ≤ int64Max) :
    Coupled (transferAt env grow path request offset) (transferAt env grow path request offset)
      (fun _ => BackAlike a.file.fpos b.file.fpos) (fun _ => BackAlike a.file.fpos b.file.fpos)
      a b := by
  unfold transferAt
  refine Coupled.bind ((hL.coupled_currentFileSize path h.toOneInode).mono (fun _ _ _ h => h) ?_) ?_
  · rintro _ a' b' ⟨⟨hfs, hb⟩, -, ha⟩
    exact ⟨⟨hfs, by rw [ha, hb, h.inode]⟩, by rw [ha, hb]; exact h.back⟩
  rintro size ⟨fs, file⟩ ⟨fs', file'⟩ ⟨⟨hfs, hb⟩, hdata, ha, hsize⟩
  obtain rfl : fs' = fs := hfs
  obtain rfl : file = a.file := ha
  obtain rfl : file' = b.file := hb
  have hsize' : sizeOf data (⟨fs', a.file⟩ : FileSt σ) = size :=
    (sizeOf_congr hdata rfl).trans hsize.symm
  have hback : BackAlike a.file.fpos b.file.fpos (⟨fs', a.file⟩ : FileSt σ) ⟨fs', b.file⟩ :=
    ⟨⟨rfl, h.inode⟩, h.back⟩
  have hoff := h.fpos
  rw [← hsize] at hoff
  -- the file is grown first exactly by a write beyond its end
  by_cases hg : request.isWrite = true ∧ size < offset
  · have hnr : ¬ (request.isWrite = false ∧ size ≤ offset) := by
      rw [hg.1]
      exact fun hn => Bool.noConfusion hn.1
    unfold whenever
    rw [if_pos hg, if_neg hnr]
    refine Coupled.bind (hL.coupled_resize grow path hmax hback ho ho' ?_ ?_) ?_
    · rw [hsize']
      exact hoff
    · rw [hsize']
      exact hg.2
    · exact fun _ _ _ hready => hL.coupled_seekTransfer hR request hready
  · unfold whenever
    rw [if_neg hg]
    refine Coupled.bind (R := fun _ a' b' => a' = ⟨fs', a.file⟩ ∧ b' = ⟨fs', b.file⟩)
      (Coupled.pure ⟨rfl, rfl⟩) ?_
    rintro _ _ _ ⟨rfl, rfl⟩
    refine Coupled.ite (fun _ => Coupled.pure hback) fun hr => ?_
    have hle : offset ≤ size := by
      cases hw : request.isWrite with
      | true =>
        rw [hw] at hg
        exact Nat.le_of_not_lt fun hlt => hg ⟨rfl, hlt⟩
      | false =>
        rw [hw] at hr
        exact Nat.le_of_not_le fun hn => hr ⟨rfl, hn⟩
    refine hL.coupled_seekTransfer hR request ⟨hback, ?_, hsize' ▸ hle, hsize' ▸ hoff⟩
    rcases h.fsize with heq | ⟨hs, hs'⟩
    · show offset ≤ a.file.fsize ↔ offset ≤ b.file.fsize
      rw [heq]
    · rw [← hsize] at hs hs'
      exact iff_of_true (Nat.le_trans hle hs) (Nat.le_trans hle hs')

/-- **One positioned transfer through either handle.** -/
theorem FileLaws.coupled_positionedIo (hL : FileLaws env data) (hR : RefreshLaws env)
    (grow : GrowBuffer) (path : CStr) (request : IoRequest) {offset : ℕ} (hmax : offset ≤ int64Max)
    (h : Alike data a b) :
    Coupled (positionedIoLocked env grow path request offset)
      (positionedIoLocked env grow path request offset)
      (fun _ => OneInode) (fun _ => OneInode) a b := by
  unfold positionedIoLocked
  refine Coupled.of_runs (bind_of_ok rfl) (bind_of_ok rfl) ?_
  by_cases ho : int64Max < a.file.fpos
  · have hfail (st : FileSt σ) (hst : int64Max < st.file.fpos) :
        (failIf (int64Max < st.file.fpos) .eoverflow : Call (FileSt σ) Unit) st =
          .err .eoverflow st := by
      unfold failIf
      rw [if_pos hst]
      rfl
    exact Or.inr ⟨_, _, _, bind_of_err (hfail a ho), bind_of_err (hfail b (h.representable.mp ho)),
      h.toOneInode⟩
  · have ho' : ¬ int64Max < b.file.fpos := mt h.representable.mpr ho
    refine Coupled.of_runs (bind_of_ok (failIf_of_not ho)) (bind_of_ok (failIf_of_not ho')) ?_
    refine Coupled.bind (R := fun _ => BackAlike a.file.fpos b.file.fpos)
      (E := fun _ => OneInode) (Coupled.attempt ?_) ?_
    · refine Coupled.ite (fun _ => Coupled.pure h.toBackAlike) fun _ => ?_
      exact hL.coupled_transferAt hR grow path request hmax h (Nat.le_of_not_lt ho)
        (Nat.le_of_not_lt ho')
    · intro result a' b' hback
      refine Coupled.bind (hL.coupled_restore (Nat.le_of_not_lt ho) (Nat.le_of_not_lt ho') hback
        (R := fun _ => OneInode) (E := fun _ => OneInode)
        fun _ _ _ h₁ _ _ _ _ => h₁.toOneInode) ?_
      exact fun restore _ _ hone => coupled_firstError result restore (fun _ _ _ => hone) fun _ => hone

end File

/-! ## Calls on descriptors -/

/-- `file_get` accepts the descriptor. -/
def FileOpen (st : MountSt σ D) (fd : ℤ) : Prop :=
  ¬ (fd < 0 ∨ st.ctx.maxFiles ≤ fd.toNat ∨ st.ctx.usedAt fd.toNat = false)

instance (st : MountSt σ D) (fd : ℤ) : Decidable (FileOpen st fd) := inferInstanceAs (Decidable (¬ _))

/-- The call on either descriptor returns the same and does the same to the
filesystem. -/
def SameIo (env : Env σ D) (st : MountSt σ D) (fd fd' : ℤ) (request : IoRequest) (offset : ℤ) :
    Prop :=
  (positionedIo env fd request offset).answer st = (positionedIo env fd' request offset).answer st ∧
    ((positionedIo env fd' request offset).final st).fs =
      ((positionedIo env fd request offset).final st).fs

theorem FileLaws.coupled_onOpenFile (hL : FileLaws env data) {α : Type} {st : MountSt σ D}
    {fd fd' : ℤ} (h : FileOpen st fd) (h' : FileOpen st fd') {forbidden : Option AccMode}
    (hacc : some (accModeAt st fd) ≠ forbidden) (hacc' : some (accModeAt st fd') ≠ forbidden)
    {m : GrowBuffer → EspFile → Call (FileSt σ) α}
    (hm : ∀ fs, data fs = data st.fs →
      Coupled (m st.ctx.growBuffer (st.ctx.file fd.toNat)) (m st.ctx.growBuffer (st.ctx.file fd'.toNat))
        (fun _ => OneInode) (fun _ => OneInode) ⟨fs, (st.ctx.file fd.toNat).file⟩
        ⟨fs, (st.ctx.file fd'.toNat).file⟩) :
    Coupled (onOpenFile env fd forbidden m) (onOpenFile env fd' forbidden m)
      (fun _ s t => t.fs = s.fs) (fun _ s t => t.fs = s.fs) st st := by
  have hget (fs : σ) {fd : ℤ} (h : FileOpen st fd) :
      (fileGet fd : Call (MountSt σ D) ℕ) ⟨fs, st.ctx⟩ = .ok fd.toNat ⟨fs, st.ctx⟩ := by
    unfold fileGet
    have hstate : (getState : Call (MountSt σ D) (MountSt σ D)) ⟨fs, st.ctx⟩ =
        .ok ⟨fs, st.ctx⟩ ⟨fs, st.ctx⟩ := rfl
    exact (bind_of_ok hstate).trans ((bind_of_ok (failIf_of_not h)).trans rfl)
  unfold onOpenFile locked onFs
  refine Coupled.bind (R := fun _ s t => t = s ∧ s.ctx = st.ctx ∧ data s.fs = data st.fs)
    (coupled_of_eq rfl ?_) ?_
  · rw [wp_zoom]
    exact wp_takeLock ⟨rfl, rfl, hL.lock st.fs⟩ rfl
  rintro _ _ ⟨fs, ctx⟩ ⟨rfl, hctx, hdata⟩
  obtain rfl : ctx = st.ctx := hctx
  refine Coupled.of_runs (bind_of_ok (hget fs h)) (bind_of_ok (hget fs h')) ?_
  refine Coupled.of_runs (bind_of_ok rfl) (bind_of_ok rfl) ?_
  refine Coupled.of_runs (bind_of_ok (failIf_of_not hacc)) (bind_of_ok (failIf_of_not hacc')) ?_
  exact Coupled.zoom ((hm fs hdata).mono (fun _ _ _ hone => hone.fs) fun _ _ _ hone => hone.fs)

/-- **Two descriptors give the same results**: opened for reading and writing through one
path, with handles that can make the same seeks, they return the same for every
positioned transfer and have the same effect. -/
theorem same_positioned_io (env : Env σ D) (data : σ → ℕ → List UInt8) (hL : FileLaws env data)
    (hR : RefreshLaws env) (st : MountSt σ D) (fd fd' : ℤ) (hopen : FileOpen st fd)
    (hopen' : FileOpen st fd') (hmode : accModeAt st fd = .rdwr) (hmode' : accModeAt st fd' = .rdwr)
    (hpath : pathAt st fd' = pathAt st fd) (h : Alike data (fileAt st fd) (fileAt st fd'))
    (request : IoRequest) (offset : ℤ) (hmax : offset ≤ int64Max) :
    SameIo env st fd fd' request offset := by
  refine Coupled.answer_eq (P := fun s t : MountSt σ D => t.fs = s.fs) ?_
  unfold positionedIo
  refine Coupled.bind (R := fun _ s t => st = s ∧ st = t) (Coupled.failIf (fun _ => rfl)
    fun _ => ⟨rfl, rfl⟩) ?_
  rintro _ _ _ ⟨rfl, rfl⟩
  refine Coupled.bind (R := fun _ s t => st = s ∧ st = t) (coupled_of_eq rfl ?_) ?_
  · unfold refuseReadOnly
    simp only [wp_whenever, wp_bind, wp_getState, wp_failIf]
    exact ⟨fun _ => ⟨fun _ => trivial, fun _ => ⟨trivial, trivial⟩⟩, fun _ => ⟨trivial, trivial⟩⟩
  rintro _ _ _ ⟨rfl, rfl⟩
  have hacc {fd : ℤ} (hm : accModeAt st fd = .rdwr) : some (accModeAt st fd) ≠
      some (if request.isWrite then .rdonly else .wronly) := by
    rw [hm]
    split_ifs
    · exact fun heq => by cases heq
    · exact fun heq => by cases heq
  refine hL.coupled_onOpenFile hopen hopen' (hacc hmode) (hacc hmode') fun fs hdata => ?_
  have hp : (st.ctx.file fd'.toNat).path = (st.ctx.file fd.toNat).path := hpath
  rw [hp]
  have hsize : sizeOf data (⟨fs, (st.ctx.file fd.toNat).file⟩ : FileSt σ) =
      sizeOf data (fileAt st fd) := sizeOf_congr hdata rfl
  have hfsize := h.fsize
  have hfpos := h.fpos
  rw [← hsize] at hfsize hfpos
  exact hL.coupled_positionedIo hR _ _ request (by omega)
    ⟨⟨⟨rfl, h.inode⟩, h.back⟩, hfsize, hfpos, h.representable⟩

end Adapter

/-! ## An old handle -/

namespace Ram

theorem refreshLaws : RefreshLaws env where
  fread _ _ _ _ _ _ := rfl
  fwrite _ _ _ _ _ _ := rfl

/-- A descriptor that has written the file and one opened afterwards read alike. -/
theorem handles_alike : SameIo env twoHandles 0 1 (.read 4) 2 := by
  refine same_positioned_io env data fileLaws refreshLaws twoHandles 0 1 (by decide) (by decide)
    (by decide) (by decide) (by decide) ?_ (.read 4) 2 (by decide)
  exact {
    fs := rfl
    inode := by decide
    back := by decide
    fsize := by decide
    fpos := by decide
    representable := by decide }

/-- Descriptor 1 is opened on the empty file before descriptor 0 writes ten bytes. -/
def oldHandle : MountSt Ram (List Ext4Direntry) :=
  run (MountOp.exec env) mounted
    [.open_ pathA rdwrCreate, .open_ pathA .rdwr, .write 0 [0, 1, 2, 3, 4, 5, 6, 7, 8, 9]]

/-- Through descriptor 0 a `pread` at 2 returns four bytes, through descriptor 1 it
fails: the seek to 2 goes beyond the size 0 that this handle has cached. -/
theorem old_handle_differs :
    FileOpen oldHandle 0 ∧ FileOpen oldHandle 1 ∧ accModeAt oldHandle 0 = .rdwr ∧
      accModeAt oldHandle 1 = .rdwr ∧ pathAt oldHandle 1 = pathAt oldHandle 0 ∧
      oldHandle.fs.lookup (pathAt oldHandle 0) = some (inodeAt oldHandle 0) ∧
      inodeAt oldHandle 1 = inodeAt oldHandle 0 ∧
      (vfsLwext4Pread env 0 4 2).answer oldHandle = .ok ⟨4, [2, 3, 4, 5]⟩ ∧
      (vfsLwext4Pread env 1 4 2).answer oldHandle = .error .einval ∧
      ¬ SameIo env oldHandle 0 1 (.read 4) 2 := by
  have h₀ : (vfsLwext4Pread env 0 4 2).answer oldHandle = .ok ⟨4, [2, 3, 4, 5]⟩ := by decide
  have h₁ : (vfsLwext4Pread env 1 4 2).answer oldHandle = .error .einval := by decide
  refine ⟨by decide, by decide, by decide, by decide, by decide, by decide, by decide, h₀, h₁,
    fun h => ?_⟩
  have heq : (vfsLwext4Pread env 0 4 2).answer oldHandle = (vfsLwext4Pread env 1 4 2).answer oldHandle :=
    h.1
  rw [h₀, h₁] at heq
  cases heq

end Ram

end EspLwext4.Port
